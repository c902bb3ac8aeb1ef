import FuzzyInference.Proofs.Exact.Chains
import FuzzyInference.Proofs.Exact.Triangular
import FuzzyInference.Variable.Store

/-!
# Polarity

What a proposition does for the degree of a condition depends on how many negations lie between the two: the
prefixes `not` above it in the tree, and the hedges `not` in its own chain. Norms grow with both operands and
complements reverse the order, so that under an even number of negations the condition gains when the term is
reached to a higher degree, and under an odd number it loses.

A proposition may occur several times in a condition, under different numbers of negations. The degrees to which
terms are reached are therefore given for every occurrence on its own, and counted from left to right. Occurrences
are told apart by numbering them: the tree of which every occurrence is about a variable of its own.

The plan of this module:

* degrees of occurrences, and the number of negations above each;
* the degree of a condition as an operation on the unit interval, and that it is what is computed;
* growth, by induction on the tree.

## Main statements

* `Condition.degree_eq_onDegrees`: what is computed
* `Condition.onDegrees_le`: the degree grows with favoured occurrences
* `Condition.degree_of_polarity`: conditions are bounded, and monotone by polarity
-/

namespace FuzzyInference

open Scalar Exact Checked

/-! ## §1 Occurrences -/

namespace Proposition

/-- The degree of a proposition on an enabled variable, given the degree to which its term is reached. -/
def degreeOn {α : Type} [Scalar α] (p : Proposition) (reached : α) : Except Error α :=
  if p.matchesAny then Hedge.applyAll p.hedges 1.0 else Hedge.applyAll p.hedges reached

/-- The proposition about a variable of its own, which has the given number. -/
def numbered (p : Proposition) (n : ℕ) : Proposition := { p with subject := { p.subject with id := n } }

/-- The degree of a proposition as an operation on the unit interval. -/
noncomputable def onDegree (p : Proposition) (x : unitInterval) : unitInterval :=
  Hedge.onDegreesAll p.hedges (if p.matchesAny then 1 else x)

theorem degreeOn_finite (p : Proposition) (x : unitInterval) :
    p.degreeOn (finite x) = .ok (finite (p.onDegree x)) := by
  unfold degreeOn onDegree
  split
  · rw [literal_one]
    exact liftM_eq_ok_iff.2 (Hedge.applyAll_finite p.hedges 1)
  · exact liftM_eq_ok_iff.2 (Hedge.applyAll_finite p.hedges x)

/-- The chain of a proposition keeps the order of degrees or reverses it, by the number of its hedges `not`; a
chain that matches everything does both. -/
theorem monotone_onDegree (p : Proposition) :
    (Even (p.hedges.count .not) → Monotone p.onDegree) ∧
    (Odd (p.hedges.count .not) → Antitone p.onDegree) := by
  by_cases hany : Hedge.any ∈ p.hedges
  · have hconstant : ∀ x y, p.onDegree x = p.onDegree y :=
      fun x y => Hedge.onDegreesAll_of_mem_any hany _ _
    exact ⟨fun _ x y _ => (hconstant x y).le, fun _ x y _ => (hconstant y x).le⟩
  · -- without it, the chain does not end with it either
    have hmatches : p.matchesAny = false := by
      apply beq_false_of_ne
      intro hlast
      exact hany (List.mem_of_getLast? hlast)
    have hchain : p.onDegree = Hedge.onDegreesAll p.hedges := by
      funext x
      simp [onDegree, hmatches]
    obtain ⟨heven, hodd⟩ := Hedge.strictMono_onDegreesAll hany
    rw [hchain]
    exact ⟨fun h => (heven h).monotone, fun h => (hodd h).antitone⟩

end Proposition

namespace Condition

/-- The condition of which every occurrence of a proposition is about a variable of its own. The variables have
numbers from the given one on, from left to right. -/
def numberFrom : ℕ → Condition → Condition
  | n, proposition p => proposition (p.numbered n)
  | n, join k left right => join k (left.numberFrom n) (right.numberFrom (n + left.propositions.length))
  | n, negation operand => negation (operand.numberFrom n)

/-- For every occurrence of a proposition, from left to right, the number of negations that it is under: prefixes
`not` above it, and hedges `not` in its chain. -/
def negations : Condition → List ℕ
  | proposition p => [p.hedges.count .not]
  | join _ left right => left.negations ++ right.negations
  | negation operand => operand.negations.map (· + 1)

@[simp] theorem length_negations (c : Condition) : c.negations.length = c.propositions.length := by
  induction c with
  | proposition p => rfl
  | join k left right ihleft ihright => simp [negations, propositions, ihleft, ihright]
  | negation operand ih => simpa [negations, propositions] using ih

@[simp] theorem propositions_numberFrom (n : ℕ) (c : Condition) :
    (c.numberFrom n).propositions = (c.propositions.zipIdx n).map fun q => q.1.numbered q.2 := by
  induction c generalizing n with
  | proposition p => rfl
  | join k left right ihleft ihright => simp [numberFrom, propositions, ihleft, ihright, List.zipIdx_append]
  | negation operand ih => exact ih n

/-! ## §2 The degree of a condition -/

/-- The degree of a condition as an operation on the degrees to which the terms of its occurrences are reached.
The first occurrence has the given number. -/
noncomputable def onDegrees (t : TNorm) {s : SNorm} (hs : s ≠ .unboundedSum) (μ : ℕ → unitInterval) :
    ℕ → Condition → unitInterval
  | n, proposition p => p.onDegree (μ n)
  | n, join .and left right =>
    t.onDegrees (left.onDegrees t hs μ n) (right.onDegrees t hs μ (n + left.propositions.length))
  | n, join .or left right =>
    SNorm.onDegrees hs (left.onDegrees t hs μ n) (right.onDegrees t hs μ (n + left.propositions.length))
  | n, negation operand => unitInterval.symm (operand.onDegrees t hs μ n)

variable {t : TNorm} {s : SNorm} {hs : s ≠ .unboundedSum} {μ ν : ℕ → unitInterval}

/-- What is computed from the degrees of propositions is the operation on the unit interval. -/
theorem degree_eq_onDegrees {degreeOf : Proposition → Except Error Exact} {c : Condition} {n : ℕ}
    (h : ∀ i p, c.propositions[i]? = some p → degreeOf p = .ok (finite (p.onDegree (μ (n + i))))) :
    c.degree (some t) (some s) degreeOf = .ok (finite (c.onDegrees t hs μ n)) := by
  induction c generalizing n with
  | proposition p => exact h 0 p rfl
  | join k left right ihleft ihright =>
    have hleft := ihleft (n := n) fun i p hp => by
      apply h i p
      rw [propositions, List.getElem?_append_left (List.getElem?_eq_some_iff.1 hp).1]
      exact hp
    -- occurrences on the right are counted after those on the left
    have hright := ihright (n := n + left.propositions.length) fun i p hp => by
      rw [Nat.add_assoc]
      apply h _ p
      rw [propositions, List.getElem?_append_right (Nat.le_add_right _ _), Nat.add_sub_cancel_left]
      exact hp
    rw [degree, hleft, ok_bind, hright, ok_bind]
    cases k with
    | and => exact liftM_eq_ok_iff.2 (t.computes_onDegrees _ _)
    | or => exact liftM_eq_ok_iff.2 (SNorm.computes_onDegrees hs _ _)
  | negation operand ih =>
    rw [degree, ih h, ok_bind, literal_one]
    rfl

/-- The variables that the propositions are about do not matter. -/
theorem onDegrees_numberFrom (m n : ℕ) (c : Condition) :
    (c.numberFrom m).onDegrees t hs μ n = c.onDegrees t hs μ n := by
  induction c generalizing m n with
  | proposition p => rfl
  | join k left right ihleft ihright =>
    cases k <;> simp only [numberFrom, onDegrees, ihleft, ihright, propositions_numberFrom, List.length_map,
      List.length_zipIdx]
  | negation operand ih => exact congrArg unitInterval.symm (ih m n)

/-- On a numbered condition, any degrees can be given to the occurrences. -/
theorem degree_numberFrom (c : Condition) :
    (c.numberFrom 0).degree (some t) (some s) (fun p => p.degreeOn (finite (μ p.subject.id))) =
      .ok (finite (c.onDegrees t hs μ 0)) := by
  rw [← onDegrees_numberFrom 0 0 c]
  apply degree_eq_onDegrees
  intro i p hp
  -- the number of an occurrence is the one that it was given
  rw [propositions_numberFrom, List.getElem?_map, List.getElem?_zipIdx] at hp
  obtain ⟨q, hq, rfl⟩ := Option.map_eq_some_iff.1 hp
  obtain ⟨r, -, rfl⟩ := Option.map_eq_some_iff.1 hq
  exact Proposition.degreeOn_finite _ _

/-- In these variables every proposition of the condition is about an enabled variable and reaches its term to the
degree of its place, unless it matches whatever its term is. -/
def Reaches (c : Condition) (vs : Variables Exact) (μ : ℕ → unitInterval) : Prop :=
  ∀ i p, c.propositions[i]? = some p → vs.isEnabled p.subject = true ∧
    (p.matchesAny = false → ∃ u, p.term = some u ∧ vs.reached p u = .ok (finite (μ i)))

theorem degree_of_reaches {c : Condition} {vs : Variables Exact} (h : c.Reaches vs μ) :
    c.degree (some t) (some s) vs.degreeOf = .ok (finite (c.onDegrees t hs μ 0)) := by
  apply degree_eq_onDegrees
  intro i p hp
  obtain ⟨henabled, hreached⟩ := h i p hp
  have hon : vs.degreeOf p = p.degreeOn (finite (μ i)) := by
    unfold Variables.degreeOf Proposition.degreeOn
    rw [henabled]
    cases hany : p.matchesAny with
    | true => rfl
    | false =>
      obtain ⟨u, hu, hdegree⟩ := hreached hany
      simp only [hu, hdegree]
      rfl
  rw [hon, Nat.zero_add]
  exact p.degreeOn_finite (μ i)

/-! ## §3 Growth -/

/-- The second assignment favours the occurrences of the given numbers of negations, from a number on: it gives a
higher degree to those under an even number of negations, and a lower one to those under an odd number. -/
def Favours (ks : List ℕ) (n : ℕ) (μ ν : ℕ → unitInterval) : Prop :=
  ∀ i k, ks[i]? = some k → (Even k → μ (n + i) ≤ ν (n + i)) ∧ (Odd k → ν (n + i) ≤ μ (n + i))

theorem Favours.left {ks ls : List ℕ} {n : ℕ} (h : Favours (ks ++ ls) n μ ν) : Favours ks n μ ν := by
  intro i k hk
  apply h i k
  rw [List.getElem?_append_left (List.getElem?_eq_some_iff.1 hk).1]
  exact hk

theorem Favours.right {ks ls : List ℕ} {n : ℕ} (h : Favours (ks ++ ls) n μ ν) :
    Favours ls (n + ks.length) μ ν := by
  intro i k hk
  rw [Nat.add_assoc]
  apply h _ k
  rw [List.getElem?_append_right (Nat.le_add_right _ _), Nat.add_sub_cancel_left]
  exact hk

/-- Under one more negation, what was favoured is at a disadvantage. -/
theorem Favours.flip {ks : List ℕ} {n : ℕ} (h : Favours (ks.map (· + 1)) n μ ν) : Favours ks n ν μ := by
  intro i k hk
  obtain ⟨heven, hodd⟩ := h i (k + 1) (by simp [hk])
  exact ⟨fun hparity => hodd hparity.add_one, fun hparity => heven hparity.add_one⟩

/-- The degree of a condition grows when its occurrences are favoured. -/
theorem onDegrees_le {c : Condition} {n : ℕ} (h : Favours c.negations n μ ν) :
    c.onDegrees t hs μ n ≤ c.onDegrees t hs ν n := by
  induction c generalizing n μ ν with
  | proposition p =>
    obtain ⟨heven, hodd⟩ := h 0 _ rfl
    obtain ⟨hmono, hanti⟩ := p.monotone_onDegree
    show p.onDegree (μ n) ≤ p.onDegree (ν n)
    rcases Nat.even_or_odd (p.hedges.count .not) with hparity | hparity
    · exact hmono hparity (heven hparity)
    · exact hanti hparity (hodd hparity)
  | join k left right ihleft ihright =>
    have hleft := ihleft h.left
    have hright := ihright h.right
    rw [length_negations] at hright
    cases k with
    | and => exact t.isTriangular.mono hleft hright
    | or => exact (SNorm.isTriangular hs).mono hleft hright
  | negation operand ih => exact unitInterval.symm_le_symm.2 (ih h.flip)

/-- A single occurrence is favoured by a higher degree under an even number of negations, and by a lower one under
an odd number. -/
theorem favours_update {ks : List ℕ} {i k : ℕ} (hi : ks[i]? = some k) {x y : unitInterval}
    (heven : Even k → x ≤ y) (hodd : Odd k → y ≤ x) :
    Favours ks 0 (Function.update μ i x) (Function.update μ i y) := by
  intro j l hl
  rw [Nat.zero_add]
  by_cases hij : j = i
  · subst hij
    cases hi.symm.trans hl
    simp only [Function.update_self]
    exact ⟨heven, hodd⟩
  · simp only [Function.update_of_ne hij]
    exact ⟨fun _ => le_refl _, fun _ => le_refl _⟩

/-- Conditions are bounded, and monotone by polarity. Under a T-norm, and an S-norm other than the plain sum, the
degree of a condition is an operation on the unit interval:

* it is what is computed from any degrees of the single occurrences before hedges;
* it grows with the degree of every occurrence under an even number of negations, and falls with that of every
  occurrence under an odd number;
* it is what is computed where all variables are enabled, from the degrees to which their terms are reached. -/
theorem degree_of_polarity (t : TNorm) {s : SNorm} (hs : s ≠ .unboundedSum) (c : Condition) :
    ∃ f : (ℕ → unitInterval) → unitInterval,
      (∀ μ, (c.numberFrom 0).degree (some t) (some s) (fun p => p.degreeOn (finite (μ p.subject.id))) =
        .ok (finite (f μ))) ∧
      (∀ i k, c.negations[i]? = some k → ∀ μ,
        (Even k → Monotone fun x => f (Function.update μ i x)) ∧
        (Odd k → Antitone fun x => f (Function.update μ i x))) ∧
      ∀ vs μ, c.Reaches vs μ → c.degree (some t) (some s) vs.degreeOf = .ok (finite (f μ)) := by
  refine ⟨fun μ => c.onDegrees t hs μ 0, fun μ => c.degree_numberFrom, fun i k hk μ => ⟨?_, ?_⟩,
    fun vs μ h => degree_of_reaches h⟩
  · intro heven x y hxy
    apply onDegrees_le
    exact favours_update hk (fun _ => hxy) fun hodd => absurd heven (Nat.not_even_iff_odd.2 hodd)
  · intro hodd x y hxy
    apply onDegrees_le
    exact favours_update hk (fun heven => absurd heven (Nat.not_even_iff_odd.2 hodd)) fun _ => hxy

/-- `x is A and not x is very A`. -/
def doubting : Condition :=
  join .and (proposition ⟨⟨0, "x", false⟩, [], some ⟨0, "A"⟩⟩)
    (negation (proposition ⟨⟨0, "x", false⟩, [.very], some ⟨0, "A"⟩⟩))

/-- An input of which every value has one half as its degree in the term. -/
noncomputable def undecided : Variables Exact :=
  ⟨[{ Variable.empty "x" 0.0 1.0 with terms := [⟨0, "A", .constant 0.5⟩] }], [], [], [], 1⟩

/-- One half, as a degree. -/
noncomputable def oneHalf : unitInterval := ⟨half, by norm_num [half_eq], by norm_num [half_eq]⟩

theorem reaches_doubting : doubting.Reaches undecided fun _ => oneHalf := by
  have hreached : ∀ p ∈ doubting.propositions, undecided.isEnabled p.subject = true ∧
      (p.matchesAny = false → ∃ u, p.term = some u ∧ undecided.reached p u = .ok (finite half)) := by
    intro p hp
    rw [← literal_half]
    rcases List.mem_pair.1 hp with rfl | rfl
    · exact ⟨rfl, fun _ => ⟨_, rfl, rfl⟩⟩
    · exact ⟨rfl, fun _ => ⟨_, rfl, rfl⟩⟩
  intro i p hp
  exact hreached p (List.mem_of_getElem? hp)

/-- The condition is about one term only. It grows with its first occurrence and falls with the second one. -/
theorem degree_of_polarity_doubting :
    SNorm.algebraicSum ≠ .unboundedSum ∧ doubting.negations = [0, 1] ∧
    (doubting.Reaches undecided fun _ => oneHalf) ∧
    ∃ f : (ℕ → unitInterval) → unitInterval,
      (∀ μ, Monotone fun x => f (Function.update μ 0 x)) ∧
      (∀ μ, Antitone fun x => f (Function.update μ 1 x)) ∧
      doubting.degree (some .algebraicProduct) (some .algebraicSum) undecided.degreeOf =
        .ok (finite (f fun _ => oneHalf)) := by
  have hs : SNorm.algebraicSum ≠ .unboundedSum := by decide
  obtain ⟨f, -, hpolarity, hreached⟩ := degree_of_polarity .algebraicProduct hs doubting
  refine ⟨hs, rfl, reaches_doubting, f, fun μ => ?_, fun μ => ?_, hreached _ _ reaches_doubting⟩
  · exact (hpolarity 0 0 rfl μ).1 (by decide)
  · exact (hpolarity 1 1 rfl μ).2 (by decide)

end Condition

end FuzzyInference
