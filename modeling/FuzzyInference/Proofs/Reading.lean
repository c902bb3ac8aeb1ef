import FuzzyInference.Proofs.Value
import FuzzyInference.Rule.Basic

/-!
# What rules speak of when they are read

Reading a rule resolves its words once: the names of variables and terms become references, which the
propositions keep. This module shows that the references of a rule that was read come from the vocabulary
against which it was read, in its antecedent and in its consequent, and that only a proposition which matches
everything goes without a term.

The plan of this module:

* propositions that a vocabulary offers;
* antecedents, along the recursive descent of the reader;
* consequents, clause by clause;
* rules.

## Main statements

* `ConditionReader.readsFrom_chain`: the propositions of a condition
* `Vocabulary.offers_of_readConclusions`: the propositions of a consequent
* `Rule.offers_of_load`: the propositions of a rule that was loaded
-/

namespace FuzzyInference

open Checked

/-! ## §1 Propositions that are offered -/

/-- The proposition is about that variable and one of its terms, or matches whatever the term is. -/
def VocabularyEntry.Covers (e : VocabularyEntry) (p : Proposition) : Prop :=
  e.ref = p.subject ∧
    match p.term with
    | some t => t ∈ e.terms
    | none => p.matchesAny = true

instance (e : VocabularyEntry) (p : Proposition) : Decidable (e.Covers p) :=
  match p with
  | ⟨subject, _, some t⟩ => inferInstanceAs (Decidable (e.ref = subject ∧ t ∈ e.terms))
  | ⟨subject, hedges, none⟩ =>
    inferInstanceAs (Decidable (e.ref = subject ∧ Proposition.matchesAny ⟨subject, hedges, none⟩ = true))

namespace Vocabulary

/-- All variables, inputs before outputs. -/
def all (v : Vocabulary) : List VocabularyEntry := v.inputs ++ v.outputs

/-- Some variable covers the proposition. -/
def Offers (v : Vocabulary) (p : Proposition) : Prop := ∃ e ∈ v.all, e.Covers p

instance (v : Vocabulary) (p : Proposition) : Decidable (v.Offers p) :=
  inferInstanceAs (Decidable (∃ e ∈ v.all, e.Covers p))

end Vocabulary

/-- A term that is found by name is one of the variable's. -/
theorem VocabularyEntry.mem_of_term? {e : VocabularyEntry} {name : String} {t : TermRef}
    (h : e.term? name = some t) : t ∈ e.terms :=
  List.mem_of_find?_eq_some h

/-! ## §2 Antecedents -/

namespace ConditionReader

/-- What follows `variable is` names a term of the variable, unless the last of its hedges matches
everything. -/
theorem covers_of_target {e : VocabularyEntry} {ws : List String} {hedges : List Hedge}
    {t : Option TermRef} {rest : Fewer ws} (h : target e ws = .ok (hedges, t, rest)) :
    e.Covers ⟨e.ref, hedges, t⟩ := by
  refine ⟨rfl, ?_⟩
  -- a hedge in front changes neither the term nor the last hedge
  induction ws generalizing hedges t with
  | nil => cases h
  | cons w ws ih =>
    unfold target at h
    split at h
    · rename_i u hu
      cases h
      exact VocabularyEntry.mem_of_term? hu
    · split at h
      · cases h
      · cases h
        rfl
      · rename_i hedge _ _
        split at h
        · cases h
        · rename_i hedges' t' rest' _ htarget
          cases h
          have hcovers := ih htarget
          cases t with
          | some u => exact hcovers
          | none =>
            have hlast : hedges'.getLast? = some .any := beq_iff_eq.1 hcovers
            simp [Proposition.matchesAny, List.getLast?_cons, hlast]

/-- Whatever is read has only propositions that the vocabulary offers. -/
def ReadsFrom {β : Type} (v : Vocabulary) (reading : Except AntecedentFault (Condition × β)) : Prop :=
  ∀ c rest, reading = .ok (c, rest) → ∀ p ∈ c.propositions, v.Offers p

namespace ReadsFrom

variable {β : Type} {v : Vocabulary}

theorem error (fault : AntecedentFault) :
    ReadsFrom v (.error fault : Except AntecedentFault (Condition × β)) := nofun

theorem ok {c : Condition} {rest : β} (h : ∀ p ∈ c.propositions, v.Offers p) :
    ReadsFrom v (.ok (c, rest)) := by
  intro c' rest' heq
  cases heq
  exact h

end ReadsFrom

theorem readsFrom_proposition (v : Vocabulary) (name : String) (ws : List String) :
    ReadsFrom v (proposition v name ws) := by
  unfold proposition
  split
  · exact .error _
  · rename_i e hfind
    have hmem : e ∈ v.all := List.mem_of_find?_eq_some hfind
    split
    · exact .error _
    · split
      · split
        · exact .error _
        · rename_i hedges t rest _ htarget
          refine .ok fun p hp => ?_
          obtain rfl := List.mem_singleton.1 hp
          exact ⟨e, hmem, covers_of_target htarget⟩
      · exact .error _

mutual

/-- Conditions of one level. The proof descends as the reader does, with the same measures. -/
theorem readsFrom_chain (v : Vocabulary) (k : Connective) (ws : List String) :
    ReadsFrom v (chain v k ws) := by
  rw [chain]
  split
  · exact .error _
  · rename_i left rest hlt hleft
    have hoperand := readsFrom_operand v k ws left _ hleft
    -- what follows only adds to the left side
    split
    · exact .error _
    · rename_i c rest' _ hrest
      exact .ok (readsFrom_chainRest v k left rest hoperand c _ hrest)
termination_by 8 * ws.length + rank k
decreasing_by
  · cases k <;> simp [rank]
  · omega

theorem readsFrom_operand (v : Vocabulary) (k : Connective) (ws : List String) :
    ReadsFrom v (operand v k ws) := by
  rw [operand.eq_def]
  match k with
  | .or => exact readsFrom_chain v .and ws
  | .and => exact readsFrom_factor v ws
termination_by 8 * ws.length + (rank k - 1)
decreasing_by all_goals simp [rank]

/-- The conditions on the left were read before. -/
theorem readsFrom_chainRest (v : Vocabulary) (k : Connective) (left : Condition) (ws : List String)
    (hleft : ∀ p ∈ left.propositions, v.Offers p) : ReadsFrom v (chainRest v k left ws) := by
  match ws with
  | [] =>
    rw [chainRest]
    exact .ok hleft
  | w :: ws =>
    rw [chainRest]
    split
    · split
      · exact .error _
      · rename_i right rest hlt hright
        have hoperand := readsFrom_operand v k ws right _ hright
        have hjoin : ∀ p ∈ (Condition.join k left right).propositions, v.Offers p := by
          intro p hp
          rcases List.mem_append.1 hp with hp | hp
          · exact hleft p hp
          · exact hoperand p hp
        split
        · exact .error _
        · rename_i c rest' _ hrest
          exact .ok (readsFrom_chainRest v k (.join k left right) rest hjoin c _ hrest)
    · exact .ok hleft
termination_by 8 * ws.length
decreasing_by
  · cases k <;> simp only [List.length_cons, rank] <;> omega
  · simp only [List.length_cons]; omega

theorem readsFrom_factor (v : Vocabulary) (ws : List String) : ReadsFrom v (factor v ws) := by
  match ws with
  | [] =>
    rw [factor]
    exact .error _
  | w :: ws =>
    rw [factor]
    split
    · split
      · exact .error _
      · rename_i operand rest _ hoperand
        exact .ok fun p hp => readsFrom_factor v ws operand _ hoperand p hp
    · split
      · split
        · exact .error _
        · rename_i inner rest _ hinner
          have hpropositions := readsFrom_chain v .or ws inner _ hinner
          -- the condition in parentheses is kept as it is
          split
          · exact .error _
          · exact .ok hpropositions
          · exact .error _
      · exact readsFrom_proposition v w ws
termination_by 8 * ws.length
decreasing_by
  · simp only [List.length_cons, rank]; omega
  · simp only [List.length_cons]; omega

end

end ConditionReader

namespace Vocabulary

variable {v : Vocabulary}

theorem offers_of_readCondition {antecedent : String} {c : Condition}
    (h : readCondition v antecedent = .ok c) : ∀ p ∈ c.propositions, v.Offers p := by
  unfold readCondition at h
  cases hread : conditionOfWords v (ruleWords antecedent) with
  | error fault =>
    rw [hread] at h
    cases h
  | ok c' =>
    rw [hread] at h
    cases h
    unfold conditionOfWords at hread
    split at hread
    · cases hread
    · split at hread
      · cases hread
      · rename_i c' _ hchain
        cases hread
        exact ConditionReader.readsFrom_chain v .or _ c _ hchain
      · cases hread

/-! ## §3 Consequents -/

theorem mem_of_readTarget {e : VocabularyEntry} {consequent : String} {ws : List String}
    {hedges : List Hedge} {t : TermRef} (h : readTarget e consequent ws = .ok (hedges, t)) :
    t ∈ e.terms := by
  -- every word but the last is a hedge
  induction ws using readTarget.induct e generalizing hedges with
  | case1 => cases h
  | case2 w u hu =>
    simp only [readTarget, hu] at h
    cases h
    exact VocabularyEntry.mem_of_term? hu
  | case3 w hw =>
    simp only [readTarget, hw] at h
    cases h
  | case4 w rest hne hw =>
    rw [readTarget.eq_3 _ _ _ _ hne, hw] at h
    cases h
  | case5 w rest hne hw =>
    rw [readTarget.eq_3 _ _ _ _ hne, hw] at h
    cases h
  | case6 w rest hne hedge hany hw ih =>
    rw [readTarget.eq_3 _ _ _ _ hne, hw] at h
    cases hedge with
    | any => exact absurd rfl hany
    | _ =>
      obtain ⟨⟨hedges', u⟩, hrest, hu⟩ := bind_eq_ok_iff.1 h
      cases hu
      exact ih hrest

/-- A clause speaks of an output. -/
theorem covers_of_readClause {consequent : String} {ws : List String} {p : Proposition}
    (h : readClause v consequent ws = .ok p) : ∃ e ∈ v.outputs, e.Covers p := by
  unfold readClause at h
  split at h
  · split at h
    · cases h
    · rename_i e hfind
      obtain ⟨⟨hedges, t⟩, htarget, hp⟩ := bind_eq_ok_iff.1 h
      cases hp
      exact ⟨e, List.mem_of_find?_eq_some hfind, rfl, mem_of_readTarget htarget⟩
  · cases h

theorem offers_of_readConclusions {consequent : String} {ps : List Proposition}
    (h : readConclusions v consequent = .ok ps) : ∀ p ∈ ps, v.Offers p := by
  intro p hp
  unfold readConclusions at h
  split at h
  · cases h
  · obtain ⟨clause, -, hclause⟩ := exists_of_mem_mapM h hp
    obtain ⟨e, he, hcovers⟩ := covers_of_readClause hclause
    exact ⟨e, List.mem_append_right _ he, hcovers⟩

end Vocabulary

/-! ## §4 Rules -/

namespace Rule

/-- The propositions of the antecedent and those of the consequent. -/
def propositions {α : Type} (r : Rule α) : List Proposition :=
  (r.antecedent.elim [] Condition.propositions) ++ r.conclusions

/-- Loading either is refused and leaves the rule unloaded, or reads both parts. -/
theorem load_cases (v : Vocabulary) (r : Rule Float) :
    (r.load v).1.isLoaded = false ∨
      ((r.load v).2 = .ok () ∧ ∃ antecedent consequent c,
        (r.load v).1.antecedent = some c ∧ readCondition v antecedent = .ok c ∧
          readConclusions v consequent = .ok (r.load v).1.conclusions) := by
  cases hparts : RuleText.split r.unload.text with
  | error fault =>
    simp only [load, hparts]
    exact .inl rfl
  | ok parts =>
    cases hc : readCondition v parts.antecedent with
    | error fault =>
      simp only [load, hparts, hc]
      exact .inl rfl
    | ok c =>
      cases hps : readConclusions v parts.consequent with
      | error fault =>
        simp only [load, hparts, hc, hps]
        exact .inl rfl
      | ok ps =>
        simp only [load, hparts, hc, hps]
        exact .inr ⟨trivial, parts.antecedent, parts.consequent, c, rfl, hc, hps⟩

/-- A rule that loading leaves loaded was read without an error. -/
theorem load_eq_of_isLoaded {v : Vocabulary} {r : Rule Float} (h : (r.load v).1.isLoaded = true) :
    r.load v = ((r.load v).1, .ok ()) := by
  rcases load_cases v r with hnot | ⟨hok, -⟩
  · rw [h] at hnot
    cases hnot
  · exact Prod.ext rfl hok

/-- The propositions of a rule that was read are those that the vocabulary offers. -/
theorem offers_of_load {v : Vocabulary} {r : Rule Float} (h : (r.load v).1.isLoaded = true) :
    ∀ p ∈ (r.load v).1.propositions, v.Offers p := by
  rcases load_cases v r with hnot | ⟨-, antecedent, consequent, c, hc, hread, hconclusions⟩
  · rw [h] at hnot
    cases hnot
  · intro p hp
    rw [propositions, hc] at hp
    rcases List.mem_append.1 hp with hp | hp
    · exact Vocabulary.offers_of_readCondition hread p hp
    · exact Vocabulary.offers_of_readConclusions hconclusions p hp

end Rule

end FuzzyInference
