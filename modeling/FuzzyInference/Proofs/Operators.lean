import FuzzyInference.Proofs.Value
import FuzzyInference.Rule.Expression

/-!
# Operators that conditions need

A condition that joins propositions by `and` or `or` needs a conjunction or a disjunction. Whether it does is
read off the tree, before anything is evaluated. The evaluation looks for an operator only after both sides
have a degree, so that it meets the lack of one exactly when nothing else stops it before.

The plan of this module:

* connectives with an operator, and one join;
* conditions, by induction on the tree.

## Main statements

* `Condition.supplied_of_degree`: a condition with a degree has the operators that it needs
* `Condition.exists_degree`: where nothing else stops it, a condition that has them has a degree
* `Condition.exists_lack`: and one that lacks some is refused for it
-/

namespace FuzzyInference

open Checked

variable {α : Type} [Scalar α] {conjunction : Option TNorm} {disjunction : Option SNorm}

/-! ## §1 Connectives -/

namespace Connective

/-- There is an operator for the connective. -/
def isSupplied (conjunction : Option TNorm) (disjunction : Option SNorm) : Connective → Bool
  | and => conjunction.isSome
  | or => disjunction.isSome

/-- The error that there is none; the text is that of the condition. -/
def lack (text : String) : Connective → Error
  | and => .evaluation (.missingConjunction text)
  | or => .evaluation (.missingDisjunction text)

/-- The operator of the connective, if there is one, has a value at two degrees. -/
def Computes (conjunction : Option TNorm) (disjunction : Option SNorm) (a b : α) : Connective → Prop
  | and => ∀ t, conjunction = some t → ∃ d, t.compute a b = .ok d
  | or => ∀ s, disjunction = some s → ∃ d, s.compute a b = .ok d

end Connective

namespace Condition

theorem joinDegrees_of_isSupplied {k : Connective} {text : String} {a b : α}
    (h : k.isSupplied conjunction disjunction = true) (hk : k.Computes conjunction disjunction a b) :
    ∃ d, joinDegrees conjunction disjunction k text a b = .ok d := by
  cases k with
  | and =>
    obtain ⟨t, rfl⟩ := Option.isSome_iff_exists.1 h
    obtain ⟨d, hd⟩ := hk t rfl
    exact ⟨d, liftM_eq_ok_iff.2 hd⟩
  | or =>
    obtain ⟨s, rfl⟩ := Option.isSome_iff_exists.1 h
    obtain ⟨d, hd⟩ := hk s rfl
    exact ⟨d, liftM_eq_ok_iff.2 hd⟩

theorem joinDegrees_of_not_isSupplied {k : Connective} (h : k.isSupplied conjunction disjunction = false)
    (text : String) (a b : α) : joinDegrees conjunction disjunction k text a b = .error (k.lack text) := by
  cases k with
  | and =>
    cases Option.isSome_eq_false_iff.1 h |> Option.isNone_iff_eq_none.1
    rfl
  | or =>
    cases Option.isSome_eq_false_iff.1 h |> Option.isNone_iff_eq_none.1
    rfl

/-! ## §2 Conditions -/

/-- There is an operator for every connective that occurs in the tree. -/
def Supplied (conjunction : Option TNorm) (disjunction : Option SNorm) (c : Condition) : Prop :=
  ∀ k, c.uses k = true → k.isSupplied conjunction disjunction = true

theorem supplied_join {k : Connective} {left right : Condition} :
    (join k left right).Supplied conjunction disjunction ↔
      k.isSupplied conjunction disjunction = true ∧ left.Supplied conjunction disjunction ∧
        right.Supplied conjunction disjunction := by
  simp only [Supplied, uses, Bool.or_eq_true, beq_iff_eq]
  constructor
  · intro h
    exact ⟨h k (.inl (.inl rfl)), fun l hl => h l (.inl (.inr hl)), fun l hl => h l (.inr hl)⟩
  · rintro ⟨hk, hleft, hright⟩ l ((rfl | hl) | hl)
    · exact hk
    · exact hleft l hl
    · exact hright l hl

/-- The operators that a condition lacks, by name. -/
theorem not_supplied_iff {c : Condition} :
    ¬c.Supplied conjunction disjunction ↔
      (conjunction = none ∧ c.uses .and = true) ∨ (disjunction = none ∧ c.uses .or = true) := by
  simp only [Supplied, not_forall]
  constructor
  · rintro ⟨k, hk, hlack⟩
    cases k with
    | and => exact .inl ⟨by simpa [Connective.isSupplied] using hlack, hk⟩
    | or => exact .inr ⟨by simpa [Connective.isSupplied] using hlack, hk⟩
  · rintro (⟨rfl, hk⟩ | ⟨rfl, hk⟩)
    · exact ⟨.and, hk, by simp [Connective.isSupplied]⟩
    · exact ⟨.or, hk, by simp [Connective.isSupplied]⟩

/-- A condition with a degree has the operators that it needs. -/
theorem supplied_of_degree {degreeOf : Proposition → Except Error α} {c : Condition} {d : α}
    (h : c.degree conjunction disjunction degreeOf = .ok d) : c.Supplied conjunction disjunction := by
  induction c generalizing d with
  | proposition p => nofun
  | join k left right ihl ihr =>
    rw [degree] at h
    obtain ⟨a, ha, h⟩ := bind_eq_ok_iff.1 h
    obtain ⟨b, hb, h⟩ := bind_eq_ok_iff.1 h
    refine supplied_join.2 ⟨?_, ihl ha, ihr hb⟩
    refine Bool.of_not_eq_false fun hlack => ?_
    rw [joinDegrees_of_not_isSupplied hlack] at h
    cases h
  | negation operand ih =>
    rw [degree] at h
    obtain ⟨a, ha, -⟩ := bind_eq_ok_iff.1 h
    exact ih ha

/-- Nothing but the lack of an operator stops the evaluation of the condition: the propositions have
degrees, and the operators that are there have a value at the degrees of their two sides. -/
def Computes (conjunction : Option TNorm) (disjunction : Option SNorm)
    (degreeOf : Proposition → Except Error α) : Condition → Prop
  | proposition p => ∃ d, degreeOf p = .ok d
  | join k left right =>
    left.Computes conjunction disjunction degreeOf ∧ right.Computes conjunction disjunction degreeOf ∧
      ∀ a b, left.degree conjunction disjunction degreeOf = .ok a →
        right.degree conjunction disjunction degreeOf = .ok b → k.Computes conjunction disjunction a b
  | negation operand => operand.Computes conjunction disjunction degreeOf

variable {degreeOf : Proposition → Except Error α} {c : Condition}

theorem exists_degree (h : c.Computes conjunction disjunction degreeOf)
    (hsupplied : c.Supplied conjunction disjunction) :
    ∃ d, c.degree conjunction disjunction degreeOf = .ok d := by
  induction c with
  | proposition p => exact h
  | join k left right ihl ihr =>
    obtain ⟨hleft, hright, hk⟩ := h
    obtain ⟨hsupplied, hsuppliedl, hsuppliedr⟩ := supplied_join.1 hsupplied
    obtain ⟨a, ha⟩ := ihl hleft hsuppliedl
    obtain ⟨b, hb⟩ := ihr hright hsuppliedr
    rw [degree, ha, hb]
    exact joinDegrees_of_isSupplied hsupplied (hk a b ha hb)
  | negation operand ih =>
    obtain ⟨a, ha⟩ := ih h hsupplied
    exact ⟨1.0 - a, by rw [degree, ha]; rfl⟩

/-- A condition that lacks an operator is refused for one that it uses and lacks. -/
theorem exists_lack (h : c.Computes conjunction disjunction degreeOf)
    (hlack : ¬c.Supplied conjunction disjunction) :
    ∃ k text, c.uses k = true ∧ k.isSupplied conjunction disjunction = false ∧
      c.degree conjunction disjunction degreeOf = .error (k.lack text) := by
  induction c with
  | proposition p => exact absurd (fun k hk => nomatch hk) hlack
  | join k left right ihl ihr =>
    obtain ⟨hleft, hright, -⟩ := h
    -- the left side is evaluated first, then the right one, and the operator is looked for last
    by_cases hsuppliedl : left.Supplied conjunction disjunction
    · obtain ⟨a, ha⟩ := exists_degree hleft hsuppliedl
      by_cases hsuppliedr : right.Supplied conjunction disjunction
      · obtain ⟨b, hb⟩ := exists_degree hright hsuppliedr
        have hk : k.isSupplied conjunction disjunction = false := by
          refine Bool.eq_false_iff.2 fun hk => hlack ?_
          exact supplied_join.2 ⟨hk, hsuppliedl, hsuppliedr⟩
        refine ⟨k, (join k left right).text, by simp [uses], hk, ?_⟩
        rw [degree, ha, hb]
        exact joinDegrees_of_not_isSupplied hk _ a b
      · obtain ⟨l, text, huses, hl, hdegree⟩ := ihr hright hsuppliedr
        refine ⟨l, text, by simp [uses, huses], hl, ?_⟩
        rw [degree, ha, hdegree]
        rfl
    · obtain ⟨l, text, huses, hl, hdegree⟩ := ihl hleft hsuppliedl
      refine ⟨l, text, by simp [uses, huses], hl, ?_⟩
      rw [degree, hdegree]
      rfl
  | negation operand ih =>
    obtain ⟨l, text, huses, hl, hdegree⟩ := ih h hlack
    refine ⟨l, text, huses, hl, ?_⟩
    rw [degree, hdegree]
    rfl

end Condition

end FuzzyInference
