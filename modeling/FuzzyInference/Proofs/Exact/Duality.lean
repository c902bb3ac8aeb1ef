import FuzzyInference.Proofs.Exact.Norms
import FuzzyInference.Rule.Expression

/-!
# Negations in conditions

Every T-norm has a partner among the S-norms that joins complements to the complement of what it joins. A rule
block that uses such a pair gives De Morgan's laws to its conditions: a prefix `not` can be moved from a
connective to its two sides when the connective is exchanged for the other one, and two of them in a row can be
left out. Done as often as possible, this leaves negations in front of propositions only.

Some of the norms have a value of their own where a quotient has none, or switch between two formulas where
degrees come within the tolerance of a bound. The partners do so for complementary degrees, so that the laws
hold without an exception.

The plan of this module:

* pairs of norms, and their duality on real numbers;
* conditions read over real numbers;
* moving a negation, one step and many, and the form in which no step is left;
* the degrees of conditions.

## Main statements

* `Dual.real_sNorm`: the S-norm of a pair, through its T-norm
* `Condition.degree_finite`: a condition has a degree when its propositions have
* `Condition.Moves.real_eq`: a step keeps the degree
* `Condition.degree_of_moves`: De Morgan's laws for whole conditions
-/

namespace FuzzyInference

open Scalar Exact Checked

/-! ## §1 Dual norms -/

/-- A T-norm and an S-norm that complements take to each other. -/
inductive Dual : TNorm → SNorm → Prop
  | maximum : Dual .minimum .maximum
  | algebraic : Dual .algebraicProduct .algebraicSum
  | bounded : Dual .boundedDifference .boundedSum
  /-- The normalized sum is the bounded sum, so that both have one partner. -/
  | normalized : Dual .boundedDifference .normalizedSum
  | drastic : Dual .drasticProduct .drasticSum
  | einstein : Dual .einsteinProduct .einsteinSum
  | hamacher : Dual .hamacherProduct .hamacherSum
  | nilpotent : Dual .nilpotentMinimum .nilpotentMaximum

namespace Dual

variable {t : TNorm} {s : SNorm} {a b : ℝ}

theorem ne_unboundedSum (h : Dual t s) : s ≠ .unboundedSum := by
  cases h <;> simp

/-- The greater of two numbers through the lesser of their complements. -/
theorem max_eq_one_sub (a b : ℝ) : max a b = 1 - min (1 - a) (1 - b) := by
  rw [min_sub_sub_left, sub_sub_cancel]

/-- Cutting a sum off at one is cutting the sum of complements, less one, off at zero. -/
theorem real_boundedSum (a b : ℝ) :
    SNorm.boundedSum.real a b = 1 - TNorm.boundedDifference.real (1 - a) (1 - b) := by
  have hsum : 1 - a + (1 - b) - 1 = 1 - (a + b) := by ring
  simp only [SNorm.real, TNorm.real]
  rw [hsum, ← sub_self (1 : ℝ), max_sub_sub_left, sub_sub_cancel]

/-- A number is negligible when its complement is near one. -/
theorem real_drasticSum (a b : ℝ) :
    SNorm.drasticSum.real a b = 1 - TNorm.drasticProduct.real (1 - a) (1 - b) := by
  have hnear : 1 - epsilon < max (1 - a) (1 - b) ↔ min a b < epsilon := by
    rw [max_sub_sub_left, sub_lt_sub_iff_left]
  simp only [SNorm.real, TNorm.real, hnear]
  split
  · exact max_eq_one_sub a b
  · exact (sub_zero 1).symm

/-- A sum stays away from one when that of the complements does. -/
theorem real_nilpotentMaximum (a b : ℝ) :
    SNorm.nilpotentMaximum.real a b = 1 - TNorm.nilpotentMinimum.real (1 - a) (1 - b) := by
  have haway : 1 + epsilon ≤ 1 - a + (1 - b) ↔ a + b + epsilon ≤ 1 := by
    constructor
    · intro h
      linarith
    · intro h
      linarith
  simp only [SNorm.real, TNorm.real, haway]
  split
  · exact max_eq_one_sub a b
  · exact (sub_zero 1).symm

theorem real_einsteinSum (ha : 0 ≤ a) (hb : 0 ≤ b) :
    SNorm.einsteinSum.real a b = 1 - TNorm.einsteinProduct.real (1 - a) (1 - b) := by
  have hdivisor : 1 + (1 - (1 - a)) * (1 - (1 - b)) = 1 + a * b := by ring
  have hne : 1 + a * b ≠ 0 := by positivity
  simp only [SNorm.real, TNorm.real]
  rw [hdivisor]
  field_simp
  ring

/-- Two ones have no quotient on the one side, two zeros none on the other. -/
theorem real_hamacherSum (a b : ℝ) :
    SNorm.hamacherSum.real a b = 1 - TNorm.hamacherProduct.real (1 - a) (1 - b) := by
  have hdivisor : 1 - a + (1 - b) - (1 - a) * (1 - b) = 1 - a * b := by ring
  simp only [SNorm.real, TNorm.real]
  rw [hdivisor]
  split
  next hzero => rw [hzero, div_zero, sub_zero]
  next hne =>
    field_simp
    ring

/-- The S-norm of a pair joins two degrees to the complement of what the T-norm makes of their complements. -/
theorem real_sNorm (h : Dual t s) (ha : 0 ≤ a) (hb : 0 ≤ b) : s.real a b = 1 - t.real (1 - a) (1 - b) := by
  cases h with
  | maximum => exact max_eq_one_sub a b
  | algebraic =>
    simp only [SNorm.real, TNorm.real]
    ring
  | bounded => exact real_boundedSum a b
  | normalized =>
    rw [SNorm.real_normalizedSum]
    exact real_boundedSum a b
  | drastic => exact real_drasticSum a b
  | einstein => exact real_einsteinSum ha hb
  | hamacher => exact real_hamacherSum a b
  | nilpotent => exact real_nilpotentMaximum a b

/-- The T-norm of a pair, through the S-norm. -/
theorem real_tNorm (h : Dual t s) (ha : a ≤ 1) (hb : b ≤ 1) : t.real a b = 1 - s.real (1 - a) (1 - b) := by
  rw [h.real_sNorm (sub_nonneg.2 ha) (sub_nonneg.2 hb)]
  simp only [sub_sub_cancel]

end Dual

/-! ## §2 Conditions over real numbers -/

theorem SNorm.domain_eq {s : SNorm} (h : s ≠ .unboundedSum) : s.domain = Set.Icc 0 1 := by
  cases s with
  | unboundedSum => exact absurd rfl h
  | _ => rfl

namespace Condition

/-- The degree of a condition, as a real number, given those of its propositions. -/
noncomputable def real (t : TNorm) (s : SNorm) (μ : Proposition → ℝ) : Condition → ℝ
  | proposition p => μ p
  | join .and left right => t.real (left.real t s μ) (right.real t s μ)
  | join .or left right => s.real (left.real t s μ) (right.real t s μ)
  | negation operand => 1 - operand.real t s μ

variable {t : TNorm} {s : SNorm} {μ : Proposition → ℝ}

/-- A condition whose propositions have degrees has a degree. -/
theorem real_mem (hs : s ≠ .unboundedSum) {c : Condition} (hμ : ∀ p ∈ c.propositions, μ p ∈ Set.Icc (0 : ℝ) 1) :
    c.real t s μ ∈ Set.Icc (0 : ℝ) 1 := by
  induction c with
  | proposition p => exact hμ p (List.mem_singleton.2 rfl)
  | join k left right ihleft ihright =>
    have hleft := ihleft fun p hp => hμ p (List.mem_append_left _ hp)
    have hright := ihright fun p hp => hμ p (List.mem_append_right _ hp)
    cases k with
    | and => exact t.real_mem hleft hright
    | or =>
      rw [← SNorm.domain_eq hs]
      exact SNorm.real_mem (s.mem_domain hleft) (s.mem_domain hright)
  | negation operand ih =>
    obtain ⟨hzero, hone⟩ := ih hμ
    exact ⟨sub_nonneg.2 hone, sub_le_self 1 hzero⟩

/-- Nothing is refused on the way to the degree of a condition. -/
theorem degree_finite (hs : s ≠ .unboundedSum) {degreeOf : Proposition → Except Error Exact} {c : Condition}
    (hdegree : ∀ p ∈ c.propositions, degreeOf p = .ok (finite (μ p)))
    (hμ : ∀ p ∈ c.propositions, μ p ∈ Set.Icc (0 : ℝ) 1) :
    c.degree (some t) (some s) degreeOf = .ok (finite (c.real t s μ)) := by
  -- by the shape of the tree; what the two sides of a connective reach are degrees again
  induction c with
  | proposition p => exact hdegree p (List.mem_singleton.2 rfl)
  | join k left right ihleft ihright =>
    have hμleft : ∀ p ∈ left.propositions, μ p ∈ Set.Icc (0 : ℝ) 1 :=
      fun p hp => hμ p (List.mem_append_left _ hp)
    have hμright : ∀ p ∈ right.propositions, μ p ∈ Set.Icc (0 : ℝ) 1 :=
      fun p hp => hμ p (List.mem_append_right _ hp)
    have hleft := real_mem (t := t) hs hμleft
    have hright := real_mem (t := t) hs hμright
    rw [degree, ihleft (fun p hp => hdegree p (List.mem_append_left _ hp)) hμleft, ok_bind,
      ihright (fun p hp => hdegree p (List.mem_append_right _ hp)) hμright, ok_bind]
    cases k with
    | and => exact liftM_eq_ok_iff.2 (t.compute_finite hleft hright)
    | or => exact liftM_eq_ok_iff.2 (SNorm.compute_finite (s.mem_domain hleft) (s.mem_domain hright))
  | negation operand ih =>
    rw [degree, ih hdegree hμ, ok_bind, literal_one]
    rfl

end Condition

/-! ## §3 Moving negations -/

/-- The connective that a negation turns a connective into. -/
def Connective.dual : Connective → Connective
  | and => or
  | or => and

namespace Condition

/-- A negation is moved down by one step, anywhere in the tree. -/
inductive Moves : Condition → Condition → Prop
  /-- Two negations in a row are left out. -/
  | double (c : Condition) : Moves (negation (negation c)) c
  /-- The negation of a connective is moved to both sides of the other connective. -/
  | through (k : Connective) (left right : Condition) :
      Moves (negation (join k left right)) (join k.dual (negation left) (negation right))
  | left {left left' : Condition} (k : Connective) (right : Condition) :
      Moves left left' → Moves (join k left right) (join k left' right)
  | right {right right' : Condition} (k : Connective) (left : Condition) :
      Moves right right' → Moves (join k left right) (join k left right')
  | under {c c' : Condition} : Moves c c' → Moves (negation c) (negation c')

/-- Some number of steps. -/
abbrev MovesTo : Condition → Condition → Prop := Relation.ReflTransGen Moves

/-- Negations stand in front of propositions only. -/
def IsNormal : Condition → Prop
  | proposition _ => True
  | join _ left right => left.IsNormal ∧ right.IsNormal
  | negation (proposition _) => True
  | negation _ => False

/-- The condition, or its negation, with all negations in front of propositions. -/
def push (negated : Bool) : Condition → Condition
  | proposition p => if negated then negation (proposition p) else proposition p
  | join k left right => join (if negated then k.dual else k) (left.push negated) (right.push negated)
  | negation operand => operand.push !negated

/-- The condition with all negations in front of propositions. -/
def normal (c : Condition) : Condition := c.push false

theorem isNormal_push (negated : Bool) (c : Condition) : (c.push negated).IsNormal := by
  induction c generalizing negated with
  | proposition p => cases negated <;> trivial
  | join k left right ihleft ihright => exact ⟨ihleft negated, ihright negated⟩
  | negation operand ih => exact ih !negated

/-- A step keeps the propositions in their order. -/
theorem Moves.propositions_eq {c c' : Condition} (h : Moves c c') : c'.propositions = c.propositions := by
  induction h with
  | double c => rfl
  | through k left right => rfl
  | left k right _ ih => exact congrArg (· ++ right.propositions) ih
  | right k left _ ih => exact congrArg (left.propositions ++ ·) ih
  | under _ ih => exact ih

theorem MovesTo.propositions_eq {c c' : Condition} (h : MovesTo c c') : c'.propositions = c.propositions := by
  induction h with
  | refl => rfl
  | tail _ hstep ih => exact hstep.propositions_eq.trans ih

/-- Steps on both sides of a connective. -/
theorem MovesTo.join {left left' right right' : Condition} (k : Connective) (hleft : MovesTo left left')
    (hright : MovesTo right right') : MovesTo (.join k left right) (.join k left' right') := by
  have hfirst : MovesTo (.join k left right) (.join k left' right) :=
    Relation.ReflTransGen.lift (fun c => Condition.join k c right) (fun _ _ => Moves.left k right) _ _ hleft
  have hsecond : MovesTo (.join k left' right) (.join k left' right') :=
    Relation.ReflTransGen.lift (fun c => Condition.join k left' c) (fun _ _ => Moves.right k left') _ _ hright
  exact hfirst.trans hsecond

/-- A condition moves to its normal form, and its negation to that of the negation. -/
theorem movesTo_push (c : Condition) : MovesTo c (c.push false) ∧ MovesTo (negation c) (c.push true) := by
  induction c with
  | proposition p => exact ⟨.refl, .refl⟩
  | join k left right ihleft ihright =>
    refine ⟨MovesTo.join k ihleft.1 ihright.1, ?_⟩
    -- the negation goes through the connective before it is pushed into both sides
    exact .head (.through k left right) (MovesTo.join k.dual ihleft.2 ihright.2)
  | negation operand ih => exact ⟨ih.2, .head (.double operand) ih.1⟩

/-! ## §4 Degrees -/

variable {t : TNorm} {s : SNorm} {μ : Proposition → ℝ}

/-- The complement of a connective is the other connective of the complements. -/
theorem real_through (h : Dual t s) {left right : Condition}
    (hleft : left.real t s μ ∈ Set.Icc (0 : ℝ) 1) (hright : right.real t s μ ∈ Set.Icc (0 : ℝ) 1)
    (k : Connective) :
    (join k.dual (negation left) (negation right)).real t s μ = (negation (join k left right)).real t s μ := by
  cases k with
  | and =>
    show s.real (1 - left.real t s μ) (1 - right.real t s μ) = 1 - t.real (left.real t s μ) (right.real t s μ)
    rw [h.real_tNorm hleft.2 hright.2, sub_sub_cancel]
  | or =>
    show t.real (1 - left.real t s μ) (1 - right.real t s μ) = 1 - s.real (left.real t s μ) (right.real t s μ)
    rw [h.real_sNorm hleft.1 hright.1, sub_sub_cancel]

/-- A step keeps the degree. -/
theorem Moves.real_eq (h : Dual t s) {c c' : Condition} (hstep : Moves c c')
    (hμ : ∀ p ∈ c.propositions, μ p ∈ Set.Icc (0 : ℝ) 1) : c'.real t s μ = c.real t s μ := by
  induction hstep with
  | double c => exact (sub_sub_cancel 1 _).symm
  | through k left right =>
    apply real_through h
    · exact real_mem h.ne_unboundedSum fun p hp => hμ p (List.mem_append_left _ hp)
    · exact real_mem h.ne_unboundedSum fun p hp => hμ p (List.mem_append_right _ hp)
  | left k right _ ih =>
    have hleft := ih fun p hp => hμ p (List.mem_append_left _ hp)
    cases k <;> simp only [real, hleft]
  | right k left _ ih =>
    have hright := ih fun p hp => hμ p (List.mem_append_right _ hp)
    cases k <;> simp only [real, hright]
  | under _ ih => exact congrArg (1 - ·) (ih hμ)

/-- So do many of them. -/
theorem MovesTo.real_eq (h : Dual t s) {c c' : Condition} (hsteps : MovesTo c c')
    (hμ : ∀ p ∈ c.propositions, μ p ∈ Set.Icc (0 : ℝ) 1) : c'.real t s μ = c.real t s μ := by
  induction hsteps with
  | refl => rfl
  | tail hsteps hstep ih =>
    rw [← ih]
    apply hstep.real_eq h
    intro p hp
    exact hμ p (MovesTo.propositions_eq hsteps ▸ hp)

/-- De Morgan's laws for whole conditions. Under a pair of norms a condition whose propositions have degrees
between zero and one has such a degree, and keeps it however its negations are moved. They can be moved until
all of them stand in front of propositions. -/
theorem degree_of_moves (h : Dual t s) {degreeOf : Proposition → Except Error Exact} {c : Condition}
    (hdegrees : ∀ p ∈ c.propositions, ∃ d, degreeOf p = .ok d ∧ d.IsDegree) :
    (∃ d, c.degree (some t) (some s) degreeOf = .ok d ∧ d.IsDegree ∧
      ∀ c', MovesTo c c' → c'.degree (some t) (some s) degreeOf = .ok d) ∧
    MovesTo c c.normal ∧ c.normal.IsNormal := by
  refine ⟨?_, c.movesTo_push.1, isNormal_push false c⟩
  have hreal : ∀ p ∈ c.propositions, ∃ x ∈ Set.Icc (0 : ℝ) 1, degreeOf p = .ok (finite x) := by
    intro p hp
    obtain ⟨d, hd, x, hx, rfl⟩ := hdegrees p hp
    exact ⟨x, hx, hd⟩
  choose! μ hμ hdegree using hreal
  refine ⟨finite (c.real t s μ), degree_finite h.ne_unboundedSum hdegree hμ,
    ⟨_, real_mem h.ne_unboundedSum hμ, rfl⟩, fun c' hmoves => ?_⟩
  -- the propositions of the other condition are the same ones
  have hsame := hmoves.propositions_eq
  rw [← hmoves.real_eq h hμ]
  apply degree_finite h.ne_unboundedSum
  · intro p hp
    exact hdegree p (hsame ▸ hp)
  · intro p hp
    exact hμ p (hsame ▸ hp)

/-- `not (x is A and not y is B)`. -/
def guarded : Condition :=
  negation (join .and (proposition ⟨⟨0, "x", false⟩, [], some ⟨0, "A"⟩⟩)
    (negation (proposition ⟨⟨1, "y", false⟩, [], some ⟨0, "B"⟩⟩)))

/-- Where both propositions hold to one half, the Einstein norms give the condition and `not x is A or y is B`
the same degree. -/
theorem degree_of_moves_guarded :
    (∀ p ∈ guarded.propositions,
      ∃ d, (fun _ => .ok (finite half) : Proposition → Except Error Exact) p = .ok d ∧ d.IsDegree) ∧
    guarded.normal = join .or (negation (proposition ⟨⟨0, "x", false⟩, [], some ⟨0, "A"⟩⟩))
      (proposition ⟨⟨1, "y", false⟩, [], some ⟨0, "B"⟩⟩) ∧
    guarded.normal.degree (some .einsteinProduct) (some .einsteinSum) (fun _ => .ok (finite half)) =
      guarded.degree (some .einsteinProduct) (some .einsteinSum) fun _ => .ok (finite half) := by
  have hdegrees : ∀ p ∈ guarded.propositions,
      ∃ d, (fun _ => .ok (finite half) : Proposition → Except Error Exact) p = .ok d ∧ d.IsDegree := by
    intro p _
    refine ⟨finite half, rfl, isDegree_finite.2 ?_⟩
    norm_num [half_eq]
  obtain ⟨⟨d, hd, -, hall⟩, hmoves, -⟩ := degree_of_moves .einstein hdegrees
  exact ⟨hdegrees, rfl, (hall _ hmoves).trans hd.symm⟩

end Condition

end FuzzyInference
