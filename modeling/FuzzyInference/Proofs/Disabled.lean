import FuzzyInference.Proofs.Operators
import FuzzyInference.Proofs.References
import FuzzyInference.Proofs.Silence

/-!
# Conditions on disabled variables

A proposition on a disabled variable has the degree zero, before its hedges are looked at. The connectives
above it do not know that: on zero and one every norm but the plain sum is the connective of truth values,
and a prefix `not` turns zero into one. The degree of a condition on disabled variables is therefore the
truth value that the condition has when none of its propositions holds. It is zero without a prefix `not`,
but a prefix `not` makes such a rule fire to the degree one, where the hedge `not` does not.

The plan of this module:

* norms on truth values;
* conditions whose propositions all have the degree zero, by induction on the tree;
* a cycle.

## Main statements

* `Condition.degree_of_zero`: the degree is the truth value
* `Engine.not_fires_of_disabled`: when a rule on disabled variables does not fire
-/

namespace FuzzyInference

open Scalar Checked

/-! ## §1 Truth values -/

/-- A truth value as a degree. -/
def truthDegree (b : Bool) : Float := if b then 1.0 else 0.0

theorem TNorm.compute_truthDegree (t : TNorm) (a b : Bool) :
    t.compute (truthDegree a) (truthDegree b) = .ok (truthDegree (a && b)) := by
  cases t <;> cases a <;> cases b <;> decide +kernel

/-- Only the plain sum leaves the unit interval. -/
theorem SNorm.compute_truthDegree {s : SNorm} {a b : Bool}
    (h : s ≠ .unboundedSum ∨ (a = false ∧ b = false)) :
    s.compute (truthDegree a) (truthDegree b) = .ok (truthDegree (a || b)) := by
  rcases h with hs | ⟨rfl, rfl⟩
  · cases s with
    | unboundedSum => exact absurd rfl hs
    | maximum | algebraicSum | boundedSum | normalizedSum | drasticSum | einsteinSum | hamacherSum
    | nilpotentMaximum => cases a <;> cases b <;> decide +kernel
  · cases s <;> decide

theorem sub_truthDegree (b : Bool) : 1.0 - truthDegree b = truthDegree !b := by
  cases b <;> decide

/-! ## §2 Conditions -/

namespace Condition

/-- The truth value of the condition when none of its propositions holds. -/
def truth : Condition → Bool
  | proposition _ => false
  | join .and left right => left.truth && right.truth
  | join .or left right => left.truth || right.truth
  | negation operand => !operand.truth

/-- No prefix `not` occurs in the tree. -/
def isPositive : Condition → Bool
  | proposition _ => true
  | join _ left right => left.isPositive && right.isPositive
  | negation _ => false

theorem truth_of_isPositive {c : Condition} (h : c.isPositive = true) : c.truth = false := by
  induction c with
  | proposition p => rfl
  | join k left right ihl ihr =>
    obtain ⟨hleft, hright⟩ := Bool.and_eq_true_iff.1 h
    cases k with
    | and => rw [truth, ihl hleft, ihr hright]; rfl
    | or => rw [truth, ihl hleft, ihr hright]; rfl
  | negation operand ih => cases h

variable {conjunction : Option TNorm} {disjunction : Option SNorm}
  {degreeOf : Proposition → Except Error Float} {c : Condition}

theorem degree_of_zero (hzero : ∀ p ∈ c.propositions, degreeOf p = .ok 0.0)
    (hsum : disjunction ≠ some .unboundedSum ∨ c.isPositive = true)
    (hsupplied : c.Supplied conjunction disjunction) :
    c.degree conjunction disjunction degreeOf = .ok (truthDegree c.truth) := by
  induction c with
  | proposition p => exact hzero p (List.mem_singleton.2 rfl)
  | join k left right ihl ihr =>
    obtain ⟨hk, hleft, hright⟩ := supplied_join.1 hsupplied
    have hpositive : (join k left right).isPositive = true →
        left.isPositive = true ∧ right.isPositive = true := Bool.and_eq_true_iff.1
    have hl := ihl (fun p hp => hzero p (List.mem_append_left _ hp))
      (hsum.imp_right fun h => (hpositive h).1) hleft
    have hr := ihr (fun p hp => hzero p (List.mem_append_right _ hp))
      (hsum.imp_right fun h => (hpositive h).2) hright
    rw [degree, hl, ok_bind, hr, ok_bind]
    cases k with
    | and =>
      obtain ⟨t, rfl⟩ := Option.isSome_iff_exists.1 hk
      exact liftM_eq_ok_iff.2 (t.compute_truthDegree left.truth right.truth)
    | or =>
      obtain ⟨s, rfl⟩ := Option.isSome_iff_exists.1 hk
      refine liftM_eq_ok_iff.2 (SNorm.compute_truthDegree (hsum.imp ?_ fun h => ?_))
      · rintro hs rfl
        exact hs rfl
      · exact ⟨truth_of_isPositive (hpositive h).1, truth_of_isPositive (hpositive h).2⟩
  | negation operand ih =>
    rw [degree, ih hzero (hsum.imp_right fun h => absurd h Bool.false_ne_true) hsupplied]
    exact congrArg Except.ok (sub_truthDegree operand.truth)

end Condition

/-! ## §3 Cycles -/

theorem Variables.degreeOf_of_disabled {vs : Variables Float} {p : Proposition}
    (h : vs.isEnabled p.subject = false) : vs.degreeOf p = .ok 0.0 := by
  unfold degreeOf
  rw [h]
  rfl

namespace Engine

theorem isEnabled_clearOutputs (vs : Variables Float) (r : VariableRef) :
    (clearOutputs vs).isEnabled r = vs.isEnabled r := by
  have houtput : (clearOutputs vs).output? r.id =
      (vs.outputs.map OutputVariable.clearFuzzyOutput ++ vs.removedOutputs).find? fun v => v.id == r.id := rfl
  unfold Variables.isEnabled
  rw [houtput, Variables.output?, List.find?_append, List.find?_append, List.find?_map]
  change (if r.isOutput then
    ((((vs.outputs.find? fun v => v.id == r.id).map OutputVariable.clearFuzzyOutput).or _).map _).getD false
    else _) = _
  cases vs.outputs.find? fun v => v.id == r.id with
  | none => rfl
  | some v => rfl

/-- A rule of which all propositions are on disabled variables.

* The values of the variables do not matter for the degree of the antecedent.
* The degree is the truth value of the antecedent when none of its propositions holds, provided the
  operators are there, and the disjunction is not the plain sum or no prefix `not` occurs.
* Without a prefix `not` that truth value is false.
* Where it is false the rule fires under no activation method, and is not marked unless it was before and is
  not evaluated. -/
theorem not_fires_of_disabled {e : Engine Float} {i j : Nat} {b : RuleBlock Float} {r : Rule Float}
    {c : Condition} (hb : e.blocks[i]? = some b) (hr : b.rules[j]? = some r)
    (hantecedent : r.antecedent = some c)
    (hdisabled : ∀ p ∈ c.propositions, e.store.isEnabled p.subject = false) :
    (∀ vs : Variables Float, (∀ p ∈ c.propositions, vs.isEnabled p.subject = false) →
      r.antecedentDegree vs b.conjunction b.disjunction =
        r.antecedentDegree e.store b.conjunction b.disjunction) ∧
    (c.Supplied b.conjunction b.disjunction →
      b.disjunction ≠ some .unboundedSum ∨ c.isPositive = true →
      r.antecedentDegree e.store b.conjunction b.disjunction = .ok (truthDegree c.truth)) ∧
    (c.isPositive = true → c.truth = false) ∧
    (c.truth = false → b.disjunction ≠ some .unboundedSum ∨ c.isPositive = true →
      ¬e.Fires i j ∧ (e.process.state.IsMarked i j → e.IsMarked i j ∧ ¬e.Evaluates i j)) := by
  have hdegree : ∀ vs : Variables Float, r.antecedentDegree vs b.conjunction b.disjunction =
      c.degree b.conjunction b.disjunction vs.degreeOf := by
    intro vs
    rw [Rule.antecedentDegree, hantecedent]
  have hzero : ∀ vs : Variables Float, (∀ p ∈ c.propositions, vs.isEnabled p.subject = false) →
      ∀ p ∈ c.propositions, vs.degreeOf p = .ok 0.0 :=
    fun vs h p hp => Variables.degreeOf_of_disabled (h p hp)
  refine ⟨fun vs hvs => ?_, fun hsupplied hsum => ?_, Condition.truth_of_isPositive, fun htruth hsum => ?_⟩
  · rw [hdegree, hdegree]
    exact Condition.degree_congr fun p hp => (hzero vs hvs p hp).trans (hzero e.store hdisabled p hp).symm
  · rw [hdegree]
    exact Condition.degree_of_zero (hzero e.store hdisabled) hsum hsupplied
  · have hfires : ¬e.Fires i j := by
      refine not_fires_of_degree hb hr fun t d hd => ?_
      unfold Rule.weightedDegree at hd
      split at hd
      next =>
        obtain ⟨x, hx, hd⟩ := bind_eq_ok_iff.1 hd
        cases hd
        rw [hdegree] at hx
        have hstill : ∀ p ∈ c.propositions,
            ((clearOutputs e.store).receive t).isEnabled p.subject = false := by
          intro p hp
          rw [Variables.isEnabled_receive, isEnabled_clearOutputs]
          exact hdisabled p hp
        -- a degree that is there was not refused for the lack of an operator
        have hfalse := Condition.degree_of_zero (hzero _ hstill) hsum (Condition.supplied_of_degree hx)
        rw [htruth, hx] at hfalse
        cases hfalse
        exact Float.above_mul_eq_false r.weight (.inr rfl)
      next => cases hd
    exact ⟨hfires, fun hmarked => ((e.isMarked_process i j).1 hmarked).resolve_left hfires⟩

/-- A proposition about the only term of the input of the relay. -/
def halfProposition (hedges : List Hedge) : Condition :=
  .proposition ⟨⟨0, "x", false⟩, hedges, some ⟨0, "HALF"⟩⟩

/-- The relay with a term for its input, which is disabled, and one rule. -/
def disabledRelay (antecedent : Condition) : Engine Float :=
  { relay with
    store := { relay.store with
      inputs := [{ Variable.empty "x" 0.0 1.0 with
        value := 0.5, enabled := false, terms := [⟨0, "HALF", .constant 1.0⟩] }] }
    blocks := [⟨"first", true, some .minimum, some .algebraicSum, none, none,
      [⟨"", 1.0, true, "", some antecedent, "", [relayProposition [] 0 "LOW"], 0.0, false⟩]⟩] }

/-- The rule `if x is HALF or x is not HALF then y is LOW` does not fire. -/
theorem not_fires_of_disabled_hedge :
    ¬(disabledRelay (.join .or (halfProposition []) (halfProposition [.not]))).Fires 0 0 := by
  have hdisabled : ∀ p ∈ (Condition.join .or (halfProposition []) (halfProposition [.not])).propositions,
      (disabledRelay (.join .or (halfProposition []) (halfProposition [.not]))).store.isEnabled p.subject =
        false := by
    decide +kernel
  obtain ⟨-, -, hpositive, hsilent⟩ := not_fires_of_disabled (i := 0) (j := 0) rfl rfl rfl hdisabled
  exact (hsilent (hpositive rfl) (.inr rfl)).1

/-- The rule `if not x is HALF then y is LOW` fires to the degree one. -/
theorem triggered_disabled_negation :
    (disabledRelay (.negation (halfProposition []))).process.state.blocks.map
      (fun b => b.rules.map fun r => (r.degree, r.triggered)) = [[(1.0, true)]] := by
  decide

end Engine

end FuzzyInference
