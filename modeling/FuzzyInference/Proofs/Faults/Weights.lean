import FuzzyInference.Proofs.Decimal.Exactness
import FuzzyInference.Proofs.Faults.Sets

/-!
# Faults of weighted constants

A weighted defuzzifier joins the values of its activated terms, and their degrees, by norms that are meant for degrees
between zero and one. The values of constants are of any size, and so is what is joined of them. Most norms have a value
everywhere: the normalized sum divides by one at least, and the Hamacher norms look at their divisor before they
divide. The Einstein norms do not look, and are the only ones that fault. Of the joined degrees they never do, for
positive numbers stay positive; so the average, too, has a divisor. What is left are the implied values and what is
joined of them.

The plan of this module:

* divisors of norms;
* one activated constant after another;
* the crisp value.

## Main statements

* `Aggregated.addContributions_eq_error_iff`: the sums of a weighted defuzzifier
* `Defuzzifier.weighted_constants`: when a weighted defuzzifier has a value
-/

namespace FuzzyInference

open Scalar Checked Float.Model UnpackedFloat

variable {f : Fault} {z : Float} {a : Activated Float} {aggregation : Option SNorm}

/-! ## §1 Divisors of norms -/

/-- The divisor of the normalized sum is at least one, or one where the sum is `nan`. -/
theorem greatest_one_beq_zero (x : Float) : (greatest 1.0 x == 0.0) = false := by
  rw [greatest]
  split_ifs with hlt
  · rw [← Bool.not_eq_true]
    intro hzero
    have hfinite := Float.isFinite_of_beq_zero hzero
    rw [Float.beq_iff_value_eq hfinite (by decide)] at hzero
    rw [Float.lt_iff_value_lt (by decide) hfinite, hzero, ← Float.lt_iff_value_lt (by decide) (by decide)] at hlt
    exact absurd hlt (by decide)
  · decide

/-- An implication faults where the divisor of the Einstein product is zero. -/
theorem impliedFaults_iff {implication : Option TNorm} {degree : Float} :
    ImpliedFaults implication degree z f ↔
      f = .zeroDivision ∧ implication = some .einsteinProduct ∧
        (2.0 - (degree + z - degree * z) == 0.0) = true := by
  rcases implication with _ | t
  · simp [ImpliedFaults]
  · cases t <;> simp [ImpliedFaults, TNorm.Faults, DivideFaults, and_comm]

/-- An aggregation faults where the divisor of the Einstein sum is zero. -/
theorem joinFaults_iff {before y : Float} :
    Aggregated.JoinFaults aggregation before y f ↔
      f = .zeroDivision ∧ aggregation = some .einsteinSum ∧ (1.0 + before * y == 0.0) = true := by
  rcases aggregation with _ | s
  · simp [Aggregated.JoinFaults]
  · cases s <;> simp [Aggregated.JoinFaults, SNorm.Faults, DivideFaults, greatest_one_beq_zero, and_comm]

/-! ## §2 One activated constant after another -/

/-- The divisor of an Einstein norm is zero: the one for the degree and the value, or the one for what was weighted
before and the implied value. -/
def Activated.Vanishes (aggregation : Option SNorm) (weighted : Float) (a : Activated Float) (z : Float) : Prop :=
  (a.implication = some .einsteinProduct ∧ (2.0 - (a.degree + z - a.degree * z) == 0.0) = true) ∨
    ∃ wz, implied a.implication a.degree z = .ok wz ∧
      aggregation = some .einsteinSum ∧ (1.0 + weighted * wz == 0.0) = true

/-- The joined degrees are not negative, which matters to the Einstein sum. -/
def StaysPositive (aggregation : Option SNorm) (weights : Float) : Prop :=
  aggregation = some .einsteinSum → Float.HasSign .positive weights.toModel.unpack

namespace StaysPositive

variable {weights sum : Float}

theorem zero (aggregation : Option SNorm) : StaysPositive aggregation 0.0 := fun _ => rfl

/-- A positive degree can be joined to those before it. -/
theorem not_joinFaults (h : StaysPositive aggregation weights) (ha : 0.0 < a.degree) :
    ¬Aggregated.JoinFaults aggregation weights a.degree f := by
  rw [joinFaults_iff]
  rintro ⟨-, heinstein, hzero⟩
  rw [((h heinstein).mul (Float.HasSign.of_pos ha)).one_add_beq_zero] at hzero
  cases hzero

/-- Positive degrees that are joined stay positive. -/
theorem accumulate (h : StaysPositive aggregation weights) (ha : 0.0 < a.degree)
    (hsum : Aggregated.accumulate aggregation weights a.degree = .ok sum) : StaysPositive aggregation sum := by
  rintro rfl
  have hone : Float.HasSign .positive (1.0 : Float).toModel.unpack := rfl
  have hdegree := Float.HasSign.of_pos ha
  have hweights := h rfl
  change (if 1.0 + weights * a.degree == 0.0 then .error .zeroDivision
    else .ok ((weights + a.degree) / (1.0 + weights * a.degree)) : Except Fault Float) = .ok sum at hsum
  rw [(hweights.mul hdegree).one_add_beq_zero, if_neg Bool.false_ne_true] at hsum
  cases hsum
  exact (hweights.add hdegree).div (hone.add (hweights.mul hdegree))

end StaysPositive

section Constants

variable (around : Option (Surroundings Float)) (minimum maximum : Float) {sums : Float × Float}
  {as : List (Activated Float)} {e : Error}

/-- One activated constant is added to both sums unless a divisor is zero. -/
theorem addContributions_constant (hpos : 0.0 < a.degree) (hz : a.term.body = .constant z)
    (hsums : StaysPositive aggregation sums.2) :
    (¬a.Vanishes aggregation sums.1 z ∧ ∃ sums', StaysPositive aggregation sums'.2 ∧
        ∀ as, addContributions around .takagiSugeno minimum maximum aggregation sums (a :: as) =
          addContributions around .takagiSugeno minimum maximum aggregation sums' as) ∨
      (a.Vanishes aggregation sums.1 z ∧
        ∀ as, addContributions around .takagiSugeno minimum maximum aggregation sums (a :: as) =
          .error (.fault .zeroDivision)) := by
  have hcontribution : contribution around .takagiSugeno minimum maximum a = .ok z := by
    rw [contribution, Term.membership, hz]
  simp only [addContributions, hcontribution, ok_bind]
  cases hwz : implied a.implication a.degree z with
  | error f =>
    obtain ⟨rfl, hzero⟩ := impliedFaults_iff.1 (implied_eq_error_iff.1 hwz)
    exact .inr ⟨.inl hzero, fun as => rfl⟩
  | ok wz =>
    cases hweighted : Aggregated.accumulate aggregation sums.1 wz with
    | error f =>
      obtain ⟨rfl, hzero⟩ := joinFaults_iff.1 (Aggregated.accumulate_eq_error_iff.1 hweighted)
      exact .inr ⟨.inr ⟨wz, hwz, hzero⟩, fun as => by simp only [liftM_ok, ok_bind, hweighted]; rfl⟩
    | ok weighted =>
      -- of the degrees the divisor is never zero
      cases hweights : Aggregated.accumulate aggregation sums.2 a.degree with
      | error f => exact absurd (Aggregated.accumulate_eq_error_iff.1 hweights) (hsums.not_joinFaults hpos)
      | ok weights =>
        refine .inl ⟨?_, (weighted, weights), hsums.accumulate hpos hweights, fun as => by
          simp only [liftM_ok, ok_bind, hweighted]⟩
        -- a divisor of zero would have been an error
        rintro (hzero | ⟨wz', hwz', hzero⟩)
        · rw [implied_eq_error_iff.2 (impliedFaults_iff.2 ⟨rfl, hzero⟩)] at hwz
          cases hwz
        · cases hwz'.symm.trans hwz
          rw [Aggregated.accumulate_eq_error_iff.2 (joinFaults_iff.2 ⟨rfl, hzero⟩)] at hweighted
          cases hweighted

/-- The divisor of an Einstein norm is zero at one of the activated constants, given the sums of those before it. -/
def VanishesAmong (around : Option (Surroundings Float)) (minimum maximum : Float) (aggregation : Option SNorm)
    (sums : Float × Float) (as : List (Activated Float)) : Prop :=
  ∃ before a after z sums', as = before ++ a :: after ∧ a.term.body = .constant z ∧
    addContributions around .takagiSugeno minimum maximum aggregation sums before = .ok sums' ∧
    a.Vanishes aggregation sums'.1 z

/-- Activated constants of positive degrees can be added unless a divisor is zero. -/
theorem addContributions_eq_error_iff (has : ∀ a ∈ as, 0.0 < a.degree ∧ ∃ z, a.term.body = .constant z)
    (hsums : StaysPositive aggregation sums.2) :
    addContributions around .takagiSugeno minimum maximum aggregation sums as = .error e ↔
      e = .fault .zeroDivision ∧ VanishesAmong around minimum maximum aggregation sums as := by
  -- the induction is over the terms that are left, and carries that the joined degrees are not negative
  induction as generalizing sums with
  | nil => simp [addContributions, VanishesAmong]
  | cons a as ih =>
    obtain ⟨hpos, z, hz⟩ := has a List.mem_cons_self
    obtain ⟨hdivisor, sums', hsums', hstep⟩ | ⟨hdivisor, hstep⟩ :=
      addContributions_constant around minimum maximum hpos hz hsums
    · rw [hstep, ih (fun b hb => has b (List.mem_cons_of_mem _ hb)) hsums']
      refine and_congr_right fun _ => ⟨?_, ?_⟩
      · rintro ⟨before, b, after, y, t, rfl, hy, ht, hvanishes⟩
        exact ⟨a :: before, b, after, y, t, rfl, hy, (hstep before).trans ht, hvanishes⟩
      · rintro ⟨before, b, after, y, t, hsplit, hy, ht, hvanishes⟩
        cases before with
        | nil =>
          cases hsplit
          cases hz.symm.trans hy
          cases ht
          exact absurd hvanishes hdivisor
        | cons c before =>
          cases hsplit
          exact ⟨before, b, after, y, t, rfl, hy, (hstep before).symm.trans ht, hvanishes⟩
    · rw [hstep, Except.error.injEq, eq_comm]
      exact (and_iff_left ⟨[], a, as, z, sums, rfl, hz, rfl, hdivisor⟩).symm

end Constants

/-! ## §3 The crisp value -/

/-- What can be divided by is not zero where it is not negligible. -/
theorem divide_of_not_negligible {x y : Float} (h : negligible y = false) : divide x y = .ok (x / y) := by
  refine if_neg fun hzero => ?_
  have hfinite := Float.isFinite_of_beq_zero hzero
  obtain ⟨habs, hvalue⟩ := Float.abs_spec hfinite
  rw [Float.beq_iff_value_eq hfinite (by decide), Float.value_zero] at hzero
  rw [hzero, abs_zero, ← Float.value_zero] at hvalue
  -- the magnitude has the value of zero, which is below the tolerance
  have hlt : Float.abs y < tolerance := by
    rw [Float.lt_iff_value_lt habs (by decide), hvalue, ← Float.lt_iff_value_lt (by decide) (by decide)]
    decide
  exact absurd (decide_eq_true hlt) (Bool.eq_false_iff.1 h)

/-- A weighted defuzzifier that has both sums has a crisp value. -/
theorem Defuzzifier.weighted_eq_error_iff (around : Option (Surroundings Float)) (m : WeightedMethod)
    (type : WeightedType) (s : Aggregated Float) (minimum maximum : Float) (e : Error) :
    (weighted m type).defuzzify around (.aggregated s) minimum maximum = .error e ↔
      weightedSums around type s minimum maximum = .error e := by
  cases hempty : s.isEmpty with
  | true =>
    have hterms : s.terms = [] := List.isEmpty_iff.1 hempty
    have hvalue : (weighted m type).defuzzify around (.aggregated s) minimum maximum = .ok nan := if_pos hempty
    rw [hvalue, weightedSums, hterms, addContributions]
    simp
  | false =>
    have hfull : ¬s.isEmpty = true := by simp [hempty]
    cases m with
    | sum =>
      have hsum : (weighted .sum type).defuzzify around (.aggregated s) minimum maximum =
          weightedSums around type s minimum maximum >>= fun sums => .ok sums.1 := if_neg hfull
      simp [hsum, bind_eq_error_iff]
    | average =>
      have haverage : (weighted .average type).defuzzify around (.aggregated s) minimum maximum =
          weightedSums around type s minimum maximum >>= fun sums =>
            if negligible sums.2 then .ok nan else divide sums.1 sums.2 := if_neg hfull
      rw [haverage, bind_eq_error_iff]
      refine or_iff_left ?_
      rintro ⟨sums, -, herror⟩
      -- an average that is taken has a divisor
      split_ifs at herror with hweights
      rw [divide_of_not_negligible (Bool.eq_false_iff.2 hweights)] at herror
      cases herror

/-- A weighted defuzzifier of activated constants with positive degrees has a value unless the divisor of an Einstein
norm is zero, and then this division is what faults; under other norms it always has one. -/
theorem Defuzzifier.weighted_constants (around : Option (Surroundings Float)) (m : WeightedMethod)
    (s : Aggregated Float) (minimum maximum : Float)
    (hs : ∀ a ∈ s.terms, 0.0 < a.degree ∧ ∃ z, a.term.body = .constant z) :
    ((∃ y, (weighted m .takagiSugeno).defuzzify around (.aggregated s) minimum maximum = .ok y) ↔
      ¬VanishesAmong around minimum maximum s.aggregation (0.0, 0.0) s.terms) ∧
    (∀ e, (weighted m .takagiSugeno).defuzzify around (.aggregated s) minimum maximum = .error e ↔
      e = .fault .zeroDivision ∧ VanishesAmong around minimum maximum s.aggregation (0.0, 0.0) s.terms) ∧
    (s.aggregation ≠ some .einsteinSum → (∀ a ∈ s.terms, a.implication ≠ some .einsteinProduct) →
      ∃ y, (weighted m .takagiSugeno).defuzzify around (.aggregated s) minimum maximum = .ok y) := by
  have hresolve : WeightedType.takagiSugeno.resolve s = .takagiSugeno := by
    unfold WeightedType.resolve
    cases s.terms <;> rfl
  have herror : ∀ e, (weighted m .takagiSugeno).defuzzify around (.aggregated s) minimum maximum = .error e ↔
      e = .fault .zeroDivision ∧ VanishesAmong around minimum maximum s.aggregation (0.0, 0.0) s.terms := by
    intro e
    rw [weighted_eq_error_iff, weightedSums, hresolve]
    exact addContributions_eq_error_iff around minimum maximum hs (.zero _)
  have hvalue : (∃ y, (weighted m .takagiSugeno).defuzzify around (.aggregated s) minimum maximum = .ok y) ↔
      ¬VanishesAmong around minimum maximum s.aggregation (0.0, 0.0) s.terms := by
    cases hresult : (weighted m .takagiSugeno).defuzzify around (.aggregated s) minimum maximum with
    | ok y => exact iff_of_true ⟨y, rfl⟩ fun h => by cases hresult.symm.trans ((herror _).2 ⟨rfl, h⟩)
    | error e => exact iff_of_false (fun ⟨y, h⟩ => by cases h) (not_not.2 ((herror e).1 hresult).2)
  refine ⟨hvalue, herror, fun hsum hproduct => hvalue.2 ?_⟩
  rintro ⟨before, a, after, z, sums, hsplit, -, -, ⟨himplication, -⟩ | ⟨wz, -, haggregation, -⟩⟩
  · exact hproduct a (by rw [hsplit]; simp) himplication
  · exact hsum haggregation

/-- The value three to the degree one half: the divisor of their Einstein product is zero. -/
theorem Defuzzifier.weighted_constants_three :
    (weighted .average .takagiSugeno).defuzzify none
        (.aggregated ⟨"Power", 0.0, 1.0, none, [⟨⟨0, "HIGH", .constant 3.0⟩, 0.5, some .einsteinProduct⟩]⟩) 0.0 1.0 =
      .error (.fault .zeroDivision) := by
  refine ((weighted_constants none .average _ 0.0 1.0 ?_).2.1 _).2 ⟨rfl, [], _, [], 3.0, (0.0, 0.0), rfl, rfl, rfl, ?_⟩
  · rintro a (_ | ⟨_, ⟨⟩⟩)
    exact ⟨by decide, 3.0, rfl⟩
  · exact .inl ⟨rfl, by decide +kernel⟩

end FuzzyInference
