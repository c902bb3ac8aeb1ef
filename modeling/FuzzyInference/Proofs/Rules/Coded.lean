import FuzzyInference.Proofs.Distinct
import FuzzyInference.Proofs.Rules.Printing

/-!
# Rules given by codes

A rule that is given by codes is written as a text, and the text is read like any other. The two have nothing in
common: the writer knows the variables and terms by their positions, the reader by their names. They agree where
names tell variables and terms apart and are words without a meaning of their own.

Codes are numbers, and what they say is not sharp. A code nearer to zero than the tolerance of scalars leaves its
variable out, and fractional parts near to each other code the same hedges.

The plan of this module:

* plain names;
* the propositions that can be written with plain names, and what is read of them;
* what codes say;
* rules given by codes;
* the engines whose rules they are.

## Main statements

* `VocabularyEntry.Spells.derives`, `VocabularyEntry.Spells.isClause`: propositions are read as they are written
* `CodedRule.means_of_proposition`: what a code says
* `CodedRule.exists_parse`: the rule that is read of codes
* `Engine.parse_coded`: the rule that an engine reads of codes
-/

namespace FuzzyInference

open Scalar Checked

/-! ## §1 Plain names -/

/-- A word without parentheses that is no keyword and names no hedge. -/
structure IsPlainWord (w : String) : Prop where
  word : Text.IsWord w
  opening : '(' ∉ w.toList
  closing : ')' ∉ w.toList
  keyword : w ∉ ruleKeywords
  hedge : Hedge.ofName? w = none

/-- The word is plain. -/
def isPlainWord (w : String) : Bool := isBareWord w && !ruleKeywords.contains w && (Hedge.ofName? w).isNone

theorem isPlainWord_iff {w : String} : isPlainWord w = true ↔ IsPlainWord w := by
  simp only [isPlainWord, Bool.and_eq_true, Bool.not_eq_true', List.contains_eq_mem, decide_eq_false_iff_not,
    Option.isNone_iff_eq_none, isBareWord_iff]
  exact ⟨fun ⟨⟨⟨hword, hopening, hclosing⟩, hkeyword⟩, hhedge⟩ => ⟨hword, hopening, hclosing, hkeyword, hhedge⟩,
    fun h => ⟨⟨⟨h.word, h.opening, h.closing⟩, h.keyword⟩, h.hedge⟩⟩

instance (w : String) : Decidable (IsPlainWord w) := decidable_of_iff _ isPlainWord_iff

theorem IsPlainWord.ruleWords {w : String} (h : IsPlainWord w) : ruleWords w = [w] :=
  ruleWords_of_isWord h.word h.opening h.closing

theorem IsPlainWord.not_mem_openers {w : String} (h : IsPlainWord w) : w ∉ ConditionReader.openers := by
  intro hmem
  rcases List.mem_pair.1 hmem with rfl | rfl
  · exact h.keyword (by decide)
  · exact h.opening (by decide)

/-- The variable and its terms have plain names, and those of the terms differ. -/
structure VocabularyEntry.IsPlain (e : VocabularyEntry) : Prop where
  name : IsPlainWord e.ref.name
  terms : ∀ t ∈ e.terms, IsPlainWord t.name
  distinct : (e.terms.map TermRef.name).Nodup

/-- All variables have plain names that tell inputs apart, and outputs. -/
structure Vocabulary.IsPlain (v : Vocabulary) : Prop where
  inputs : ∀ e ∈ v.inputs, e.IsPlain
  outputs : ∀ e ∈ v.outputs, e.IsPlain
  distinctInputs : (v.inputs.map fun e => e.ref.name).Nodup
  distinctOutputs : (v.outputs.map fun e => e.ref.name).Nodup

/-- What has a name of its own is found by its name. -/
theorem find?_name {ι : Type} (name : ι → String) {xs : List ι} {x : ι} (hx : x ∈ xs)
    (hdistinct : (xs.map name).Nodup) : xs.find? (fun y => name y == name x) = some x := by
  cases hfind : xs.find? fun y => name y == name x with
  | none => simpa using List.find?_eq_none.1 hfind x hx
  | some y =>
    have hname : name y = name x := by simpa using List.find?_some hfind
    rw [List.inj_on_of_nodup_map hdistinct (List.mem_of_find?_eq_some hfind) hx hname]

namespace VocabularyEntry.IsPlain

variable {e : VocabularyEntry}

theorem term?_name (h : e.IsPlain) {t : TermRef} (ht : t ∈ e.terms) : e.term? t.name = some t :=
  find?_name TermRef.name ht h.distinct

/-- No term hides a hedge. -/
theorem term?_hedge (h : e.IsPlain) (hedge : Hedge) : e.term? hedge.name = none := by
  refine List.find?_eq_none.2 fun t ht hname => ?_
  have heq : t.name = hedge.name := by simpa using hname
  have hnone := (h.terms t ht).hedge
  rw [heq, Hedge.ofName?_eq_some_iff.2 rfl] at hnone
  cases hnone

end VocabularyEntry.IsPlain

theorem Vocabulary.IsPlain.find?_input {v : Vocabulary} (h : v.IsPlain) {e : VocabularyEntry} (he : e ∈ v.inputs) :
    v.find? e.ref.name = some e := by
  rw [find?, List.find?_append, find?_name (fun e : VocabularyEntry => e.ref.name) he h.distinctInputs, Option.some_or]

theorem Vocabulary.IsPlain.findOutput?_output {v : Vocabulary} (h : v.IsPlain) {e : VocabularyEntry}
    (he : e ∈ v.outputs) : v.findOutput? e.ref.name = some e :=
  find?_name (fun e : VocabularyEntry => e.ref.name) he h.distinctOutputs

/-! ## §2 Propositions in plain names -/

/-- The proposition is about the variable and one of its terms, or matches whatever the term is. -/
inductive VocabularyEntry.Spells (e : VocabularyEntry) : Proposition → Prop
  | term {hedges : List Hedge} {t : TermRef} (hany : .any ∉ hedges) (ht : t ∈ e.terms) :
      Spells e ⟨e.ref, hedges, some t⟩
  | any {hedges : List Hedge} (hany : .any ∉ hedges) : Spells e ⟨e.ref, hedges ++ [.any], none⟩

namespace VocabularyEntry

open ConditionReader

variable {v : Vocabulary} {e : VocabularyEntry} {p : Proposition}

/-- Hedges may stand before other hedges and a term. -/
theorem IsPlain.targets_append (h : e.IsPlain) {hedges hs : List Hedge} {ws : List String} {t : Option TermRef}
    (hany : .any ∉ hedges) (hws : Targets e ws hs t) :
    Targets e (hedges.map Hedge.name ++ ws) (hedges ++ hs) t := by
  induction hedges with
  | nil => exact hws
  | cons hedge hedges ih =>
    obtain ⟨hne, hany⟩ := List.ne_and_not_mem_of_not_mem_cons hany
    exact .hedge hne.symm (h.term?_hedge hedge) (ih hany)

theorem concludes_append {hedges hs : List Hedge} {ws : List String} {t : TermRef}
    (hany : .any ∉ hedges) (hws : e.Concludes ws hs t) :
    e.Concludes (hedges.map Hedge.name ++ ws) (hedges ++ hs) t := by
  induction hedges with
  | nil => exact hws
  | cons hedge hedges ih =>
    obtain ⟨hne, hany⟩ := List.ne_and_not_mem_of_not_mem_cons hany
    exact .hedge hne.symm (ih hany)

theorem IsPlain.targets_of_spells (h : e.IsPlain) (hp : e.Spells p) :
    Targets e (p.hedges.map Hedge.name ++ (p.term.map TermRef.name).toList) p.hedges p.term := by
  cases hp with
  | term hany ht =>
    have htargets := h.targets_append hany (.term (h.term?_name ht))
    rwa [List.append_nil] at htargets
  | any hany =>
    have htargets := h.targets_append hany (.any (h.term?_hedge .any))
    simpa [Hedge.name] using htargets

theorem Spells.subject_eq (h : e.Spells p) : p.subject = e.ref := by
  cases h <;> rfl

/-- Each word of a proposition is read as this word, and is no keyword between propositions. -/
theorem IsPlain.word_spec (he : e.IsPlain) (hp : e.Spells p) {w : String} (hw : w ∈ p.words) :
    ruleWords w = [w] ∧ w ∉ ["then", "and", "or", "with"] := by
  have his : ruleWords "is" = ["is"] ∧ "is" ∉ ["then", "and", "or", "with"] :=
    ⟨ruleWords_keyword (by decide), by decide⟩
  have hhedge : ∀ h : Hedge, ruleWords h.name = [h.name] ∧ h.name ∉ ["then", "and", "or", "with"] :=
    fun h => ⟨ruleWords_of_isBareWord (by cases h <;> decide), by cases h <;> decide⟩
  have hkeywords : ∀ u ∈ ["then", "and", "or", "with"], u ∈ ruleKeywords := by decide
  have hplain : ∀ {u}, IsPlainWord u → ruleWords u = [u] ∧ u ∉ ["then", "and", "or", "with"] :=
    fun h => ⟨h.ruleWords, fun hmem => h.keyword (hkeywords _ hmem)⟩
  simp only [Proposition.words, List.cons_append, List.nil_append, List.mem_cons, List.mem_append, List.mem_map,
    Option.mem_toList, Option.map_eq_some_iff] at hw
  rcases hw with rfl | rfl | ⟨h, -, rfl⟩ | ⟨t, ht, rfl⟩
  · rw [hp.subject_eq]
    exact hplain he.name
  · exact his
  · exact hhedge h
  · cases hp with
    | term _ hmem =>
      cases ht
      exact hplain (he.terms _ hmem)
    | any => cases ht

/-- A proposition is read as a part of an antecedent. -/
theorem Spells.derives (hp : e.Spells p) (hv : v.IsPlain) (he : e ∈ v.inputs) :
    Derives v .factor p.words (.proposition p) := by
  have hplain := hv.inputs e he
  have hderives := Derives.proposition hplain.name.not_mem_openers (hv.find?_input he) (hplain.targets_of_spells hp)
  rw [← hp.subject_eq] at hderives
  exact hderives

/-- A proposition with a term is read as a conclusion. -/
theorem Spells.isClause (hp : e.Spells p) (hv : v.IsPlain) (he : e ∈ v.outputs) (hany : .any ∉ p.hedges) :
    v.IsClause p.words p := by
  have hplain := hv.outputs e he
  have hand : "and" ∉ p.words := fun hmem => (hplain.word_spec hp hmem).2 (by decide)
  cases hp with
  | term hnone ht =>
    have hconcludes := concludes_append hnone (.term (hplain.term?_name ht))
    rw [List.append_nil] at hconcludes
    exact .intro (hv.findOutput?_output he) hconcludes hand
  | any => exact absurd (List.mem_append_right _ (List.mem_singleton_self _)) hany

end VocabularyEntry

/-! ### Rows of propositions -/

/-- Propositions joined by one connective, grouped to the left. -/
def Condition.row (k : Connective) (p : Proposition) (ps : List Proposition) : Condition :=
  ps.foldl (fun c q => .join k c (.proposition q)) (.proposition p)

section Rows

open ConditionReader

variable {v : Vocabulary} {entries : List VocabularyEntry} {p : Proposition} {ps : List Proposition}

/-- A chain goes on with propositions. -/
theorem derives_append {k : Connective} {ws : List String} {c : Condition} (hc : Derives v (.chain k) ws c)
    (hps : ∀ q ∈ ps, Derives v .factor q.words (.proposition q)) :
    Derives v (.chain k) (ws ++ ps.flatMap fun q => k.word :: q.words)
      (ps.foldl (fun c q => .join k c (.proposition q)) c) := by
  induction ps generalizing ws c with
  | nil =>
    rw [List.flatMap_nil, List.append_nil]
    exact hc
  | cons q ps ih =>
    have hq := (hps q List.mem_cons_self).operand_of_factor k
    have htail := ih (.join hc hq) fun q' hq' => hps q' (List.mem_cons_of_mem _ hq')
    rwa [List.append_assoc, List.cons_append] at htail

/-- A row of propositions is an antecedent. -/
theorem derives_row {k : Connective} (hps : ∀ q ∈ p :: ps, Derives v .factor q.words (.proposition q)) :
    Derives v (.chain .or) (joinedWords k.word (p :: ps)) (Condition.row k p ps) := by
  have hrow := derives_append ((hps p List.mem_cons_self).chain k) fun q hq => hps q (List.mem_cons_of_mem _ hq)
  cases k with
  | or => exact hrow
  | and => exact .operand hrow

/-- A row of clauses is a consequent. -/
theorem isConsequent_row (hps : ∀ q ∈ p :: ps, v.IsClause q.words q) :
    v.IsConsequent (joinedWords "and" (p :: ps)) (p :: ps) := by
  induction ps generalizing p with
  | nil =>
    rw [joinedWords, List.flatMap_nil, List.append_nil]
    exact .last (hps p List.mem_cons_self)
  | cons q ps ih => exact .and (hps p List.mem_cons_self) (ih fun q' hq' => hps q' (List.mem_cons_of_mem _ hq'))

/-- What is written in plain names is cut into its words. -/
theorem words_of_spells (hentries : ∀ e ∈ entries, e.IsPlain) (hps : ∀ q ∈ ps, ∃ e ∈ entries, e.Spells q)
    {w : String} (hw : w ∈ ["and", "or"]) :
    ruleWords (joinedText w ps) = joinedWords w ps ∧ "then" ∉ Text.words (joinedText w ps) ∧
      "with" ∉ Text.words (joinedText w ps) := by
  have hjoin : ruleWords w = [w] ∧ w ≠ "then" ∧ w ≠ "with" := by
    rcases List.mem_pair.1 hw with rfl | rfl
    · exact ⟨ruleWords_keyword (by decide), by decide, by decide⟩
    · exact ⟨ruleWords_keyword (by decide), by decide, by decide⟩
  have hspec : ∀ q ∈ ps, ∀ u ∈ q.words, ruleWords u = [u] ∧ u ∉ ["then", "and", "or", "with"] := by
    intro q hq u hu
    obtain ⟨e, he, hspells⟩ := hps q hq
    exact (hentries e he).word_spec hspells hu
  have hjoined : ∀ u ∈ joinedWords w ps, ruleWords u = [u] := by
    intro u hu
    by_cases heq : u = w
    · rw [heq, hjoin.1]
    · obtain ⟨q, hq, hmem⟩ := mem_joinedWords hu heq
      exact (hspec q hq u hmem).1
  have hwords := ruleWords_joinedText hjoin.1 hjoined
  have hkeyword : ∀ u ∈ ["then", "with"], u ∉ Text.words (joinedText w ps) := by
    intro u hu hmem
    have hu' : ruleWords u = [u] ∧ u ∈ ["then", "and", "or", "with"] ∧ u ≠ w := by
      rcases List.mem_pair.1 hu with rfl | rfl
      · exact ⟨ruleWords_keyword (by decide), by decide, hjoin.2.1.symm⟩
      · exact ⟨ruleWords_keyword (by decide), by decide, hjoin.2.2.symm⟩
    have hrule := mem_ruleWords_of_mem_words hmem hu'.1
    rw [hwords] at hrule
    obtain ⟨q, hq, hword⟩ := mem_joinedWords hrule hu'.2.2
    exact (hspec q hq u hword).2 hu'.2.1
  exact ⟨hwords, hkeyword _ (by decide), hkeyword _ (by decide)⟩

end Rows

/-! ## §3 What codes say -/

namespace CodedRule

/-- The fractional part codes these hedges: none near zero, and otherwise those of a number near to it. -/
def CodesHedges (fraction : Float) (hedges : List Hedge) : Prop :=
  nearWithin fractionTolerance fraction 0.0 = true ∧ hedges = [] ∨
    ∃ x, (x, hedges) ∈ fractionHedges ∧ nearWithin fractionTolerance fraction x = true

/-- The hedge of a negative code. -/
def negation (code : Float) : List Hedge := if code < 0.0 then [.not] else []

theorem any_not_mem_negation (code : Float) : .any ∉ negation code := by
  unfold negation
  split <;> decide

/-- What a code says about a variable. The proposition is negated where the code is negative and has the hedges
of the fractional part; its term is that at the position of the whole part, counted from one, unless the hedges
match everything. -/
structure Means (e : VocabularyEntry) (code : Float) (p : Proposition) : Prop where
  subject : p.subject = e.ref
  hedges : ∃ fraction hs, Scalar.remainder (Scalar.abs code) 1.0 = .ok fraction ∧ CodesHedges fraction hs ∧
    p.hedges = negation code ++ hs
  any : .any ∈ p.hedges → p.term = none
  term : .any ∉ p.hedges → ∃ position t, wholePart (Scalar.abs code) = .ok (position + 1) ∧
    e.terms[position]? = some t ∧ p.term = some t

theorem codesHedges_of_hedges? {fraction : Float} {hedges : List Hedge} (h : hedges? fraction = some hedges) :
    CodesHedges fraction hedges := by
  unfold hedges? at h
  split at h
  · rename_i hzero
    cases h
    exact .inl ⟨hzero, rfl⟩
  · obtain ⟨⟨x, hs⟩, hfind, rfl⟩ := Option.map_eq_some_iff.1 h
    have hnear := List.find?_some hfind
    exact .inr ⟨x, List.mem_of_find?_eq_some hfind, hnear⟩

/-- Codes say something or are refused. -/
theorem means_of_proposition {e : VocabularyEntry} {isConclusion : Bool} {code : Float} {p : Proposition}
    (h : proposition e isConclusion code = .ok p) :
    Means e code p ∧ (isConclusion = true → .any ∉ p.hedges) := by
  unfold proposition at h
  obtain ⟨position, hposition, h⟩ := bind_eq_ok_iff.1 h
  obtain ⟨fraction, hfraction, h⟩ := bind_eq_ok_iff.1 h
  rw [liftM_eq_ok_iff] at hposition hfraction
  by_cases hlength : e.terms.length < position
  · simp only [if_pos hlength] at h
    cases h
  simp only [if_neg hlength] at h
  cases hcoded : hedges? fraction with
  | none =>
    simp only [hcoded] at h
    cases h
  | some hs =>
    simp only [hcoded, pure_eq_ok, ok_bind] at h
    have hedges (t : Option TermRef) : ∃ fraction hs', remainder (Scalar.abs code) 1.0 = .ok fraction ∧
        CodesHedges fraction hs' ∧ (⟨e.ref, negation code ++ hs, t⟩ : Proposition).hedges = negation code ++ hs' :=
      ⟨fraction, hs, hfraction, codesHedges_of_hedges? hcoded, rfl⟩
    split at h
    · rename_i hany
      have hmem : .any ∈ negation code ++ hs := List.mem_append_right _ (by simpa using hany)
      split at h
      · cases h
      · rename_i hconclusion
        cases h
        exact ⟨⟨rfl, hedges none, fun _ => rfl, fun hnone => absurd hmem hnone⟩,
          fun hyes => absurd hyes hconclusion⟩
    · rename_i hany
      have hnone : .any ∉ negation code ++ hs := by
        rw [List.mem_append, not_or]
        exact ⟨any_not_mem_negation code, by simpa using hany⟩
      -- a proposition without a term is left only to the hedge that matches everything
      split at h
      · rename_i t ht
        cases h
        refine ⟨⟨rfl, hedges (some t), fun hmem => absurd hmem hnone, fun _ => ?_⟩, fun _ => hnone⟩
        -- positions are counted from one
        cases position with
        | zero => cases ht
        | succ position => exact ⟨position, t, hposition, ht, rfl⟩
      · cases h

/-- What a code says can be written in plain names. -/
theorem Means.spells {e : VocabularyEntry} {code : Float} {p : Proposition} (h : Means e code p) : e.Spells p := by
  have htable : ∀ q ∈ fractionHedges, .any ∈ q.2 → q.2 = [.any] := by
    simp only [fractionHedges, List.forall_mem_cons]
    decide
  obtain ⟨fraction, hs, -, hcodes, hhedges⟩ := h.hedges
  have hsubject := h.subject
  by_cases hany : .any ∈ p.hedges
  · have hterm := h.any hany
    -- no fraction codes other hedges beside that one
    have hs_eq : hs = [.any] := by
      rw [hhedges, List.mem_append] at hany
      have hmem := hany.resolve_left (any_not_mem_negation code)
      rcases hcodes with ⟨-, rfl⟩ | ⟨x, hx, -⟩
      · cases hmem
      · exact htable _ hx hmem
    obtain ⟨subject, hedges, term⟩ := p
    subst hsubject hterm hhedges hs_eq
    exact .any (any_not_mem_negation code)
  · obtain ⟨position, t, -, ht, hterm⟩ := h.term hany
    obtain ⟨subject, hedges, term⟩ := p
    subst hsubject hterm
    exact .term hany (List.mem_of_getElem? ht)

/-! ### Rows of codes -/

/-- The variables that codes do not leave out, each with its code. -/
def chosen (entries : List VocabularyEntry) (codes : List Float) : List (VocabularyEntry × Float) :=
  (entries.zip codes).filter fun x => !isOmitted x.2

/-- The number of a connective. -/
def connectiveCode : Connective → Int
  | .and => 1
  | .or => 2

/-- The row holds the codes of the inputs and of the outputs, the weight and the number of the connective. -/
structure IsRow (v : Vocabulary) (row : List Value) (inputs outputs : List Float) (weight : Float)
    (k : Connective) : Prop where
  scalars : ∃ last, row.mapM Value.toScalar = .ok (inputs ++ outputs ++ [weight, last]) ∧
    Value.truncated last = .ok (connectiveCode k)
  inputs : inputs.length = v.inputs.length
  outputs : outputs.length = v.outputs.length

theorem connectiveOf_eq_ok {n : Int} {k : Connective} (h : connectiveOf n = .ok k) : n = connectiveCode k := by
  unfold connectiveOf at h
  split at h
  · rename_i hn
    cases h
    exact hn
  · split at h
    · rename_i hn
      cases h
      exact hn
    · cases h

/-- Rows that are too long or too short are refused. -/
theorem exists_parts {codes : List Float} {m n : Nat} (h : codes.length = m + n + 2) :
    ∃ weight last, codes = codes.take m ++ (codes.drop m).take n ++ [weight, last] ∧
      (codes.drop (m + n)).headD nan = weight ∧ (codes.drop (m + n)).getLastD nan = last := by
  obtain ⟨weight, last, htail⟩ : ∃ weight last, codes.drop (m + n) = [weight, last] := by
    refine List.length_eq_two.1 ?_
    rw [List.length_drop]
    omega
  refine ⟨weight, last, ?_, by rw [htail]; rfl, by rw [htail]; rfl⟩
  rw [← htail, ← List.drop_drop, List.append_assoc, List.take_append_drop, List.take_append_drop]

/-- What a row stands for is that of its codes, of its weight and of the number of its connective. -/
theorem ofCodes_eq {v : Vocabulary} {row : List Value} {codes : List Float} {weight last : Float}
    (hrow : row.mapM Value.toScalar = .ok (codes ++ [weight, last]))
    (hlength : codes.length = v.inputs.length + v.outputs.length) :
    ofCodes v row = do
      let connective ← connectiveOf (← Value.truncated last)
      let conditions ← propositions false v.inputs (codes.take v.inputs.length)
      let conclusions ← propositions true v.outputs (codes.drop v.inputs.length)
      if conditions.isEmpty || conclusions.isEmpty then
        throw (.configuration (.codedWithoutTerm (listed (codes ++ [weight, last]))))
      return ⟨conditions, connective, conclusions, weight⟩ := by
  have hcount : row.length = v.inputs.length + v.outputs.length + 2 := by
    rw [((mapM_eq_ok_iff _ _ _).1 hrow).length_eq, List.length_append, hlength]
    rfl
  have htail : (codes ++ [weight, last]).drop (v.inputs.length + v.outputs.length) = [weight, last] :=
    List.drop_left' hlength
  have hinputs : (codes ++ [weight, last]).take v.inputs.length = codes.take v.inputs.length :=
    List.take_append_of_le_length (by omega)
  have houtputs : ((codes ++ [weight, last]).drop v.inputs.length).take v.outputs.length =
      codes.drop v.inputs.length := by
    rw [List.drop_append_of_le_length (by omega), List.take_left']
    rw [List.length_drop]
    omega
  unfold ofCodes
  simp only [hcount, bne_self_eq_false, Bool.false_eq_true, if_false, hrow, ok_bind, htail, hinputs, houtputs]
  rfl

/-- A row that is accepted has as many codes as there are variables, and what the codes say. -/
theorem exists_row {v : Vocabulary} {row : List Value} {coded : CodedRule} (h : ofCodes v row = .ok coded) :
    ∃ inputs outputs, IsRow v row inputs outputs coded.weight coded.connective ∧
      propositions false v.inputs inputs = .ok coded.conditions ∧
      propositions true v.outputs outputs = .ok coded.conclusions ∧
      coded.conditions ≠ [] ∧ coded.conclusions ≠ [] := by
  unfold ofCodes at h
  by_cases hlength : row.length = v.inputs.length + v.outputs.length + 2
  · simp only [hlength, bne_self_eq_false, Bool.false_eq_true, if_false] at h
    simp only [bind_eq_ok_iff] at h
    obtain ⟨codes, hcodes, n, hn, k, hk, conditions, hconditions, conclusions, hconclusions, h⟩ := h
    have hcount : codes.length = v.inputs.length + v.outputs.length + 2 := by
      rw [← hlength]
      exact ((mapM_eq_ok_iff _ _ _).1 hcodes).length_eq.symm
    obtain ⟨weight, last, hparts, hweight, hlast⟩ := exists_parts hcount
    rw [hlast, liftM_eq_ok_iff, connectiveOf_eq_ok hk] at hn
    split at h
    · cases h
    · rename_i hempty
      cases h
      simp only [Bool.or_eq_true, List.isEmpty_iff, not_or] at hempty
      refine ⟨_, _, ⟨⟨last, ?_, hn⟩, ?_, ?_⟩, hconditions, hconclusions, hempty.1, hempty.2⟩
      · rw [hweight, ← hparts]
        exact hcodes
      · rw [List.length_take]
        omega
      · rw [List.length_take, List.length_drop]
        omega
  · have hne : (row.length != v.inputs.length + v.outputs.length + 2) = true := by simpa using hlength
    simp only [hne, if_true] at h
    obtain ⟨shown, -, h⟩ := bind_eq_ok_iff.1 h
    cases h

/-- Of the variables that are chosen every one has its proposition. -/
theorem forall₂_of_propositions {isConclusion : Bool} {entries : List VocabularyEntry} {codes : List Float}
    {ps : List Proposition} (h : propositions isConclusion entries codes = .ok ps) :
    List.Forall₂ (fun x p => Means x.1 x.2 p ∧ (isConclusion = true → .any ∉ p.hedges)) (chosen entries codes) ps :=
  ((mapM_eq_ok_iff _ _ _).1 h).imp fun _ _ => means_of_proposition

theorem spells_of_propositions {isConclusion : Bool} {entries : List VocabularyEntry} {codes : List Float}
    {ps : List Proposition} (h : propositions isConclusion entries codes = .ok ps) :
    ∀ p ∈ ps, ∃ e ∈ entries, e.Spells p ∧ (isConclusion = true → .any ∉ p.hedges) := by
  intro p hp
  obtain ⟨x, hx, hmeans, hany⟩ := exists_mem_left_of_forall₂ (forall₂_of_propositions h) hp
  exact ⟨x.1, (List.of_mem_zip (List.mem_filter.1 hx).1).1, hmeans.spells, hany⟩

/-! ## §4 Rules given by codes -/

/-- What a coded rule shows of its weight. -/
def weightShown (weight : Float) : Option String :=
  if near weight 1.0 then none else some (Decimal.significantText weightDigits weight)

theorem text_eq (coded : CodedRule) :
    coded.text = ruleText (joinedText coded.connective.word coded.conditions)
      (joinedText "and" coded.conclusions) (weightShown coded.weight) := by
  unfold text ruleText weightShown
  dsimp only
  split <;> rfl

theorem isWord_weightShown (weight : Float) :
    ∀ w ∈ weightShown weight, Text.IsWord w ∧ ∃ x, Scalar.read? w = some x := by
  intro w hw
  unfold weightShown at hw
  split at hw
  · cases hw
  · cases hw
    exact ⟨(Decimal.isNumberText_significantText weight weightDigits).isWord,
      Decimal.exists_readFloat?_significantText weightDigits weight⟩

section Parts

variable {v : Vocabulary} {ps : List Proposition}

/-- The propositions of the inputs are an antecedent. -/
theorem derives_of_propositions (hv : v.IsPlain) {inputs : List Float}
    (h : propositions false v.inputs inputs = .ok ps) (hne : ps ≠ []) (k : Connective) :
    ∃ p qs, ps = p :: qs ∧
      ConditionReader.Derives v (.chain .or) (ruleWords (joinedText k.word ps)) (Condition.row k p qs) ∧
      "then" ∉ Text.words (joinedText k.word ps) := by
  have hspells := spells_of_propositions h
  have hword : k.word ∈ ["and", "or"] := by cases k <;> decide
  obtain ⟨hcut, hthen, -⟩ := words_of_spells hv.inputs
    (fun q hq => (hspells q hq).imp fun e he => ⟨he.1, he.2.1⟩) hword
  obtain ⟨p, qs, rfl⟩ := List.exists_cons_of_ne_nil hne
  refine ⟨p, qs, rfl, ?_, hthen⟩
  rw [hcut]
  refine derives_row fun q hq => ?_
  obtain ⟨e, he, hq, -⟩ := hspells q hq
  exact hq.derives hv he

/-- The propositions of the outputs are a consequent. -/
theorem isConsequent_of_propositions (hv : v.IsPlain) {outputs : List Float}
    (h : propositions true v.outputs outputs = .ok ps) (hne : ps ≠ []) :
    v.IsConsequent (ruleWords (joinedText "and" ps)) ps ∧ "with" ∉ Text.words (joinedText "and" ps) := by
  have hspells := spells_of_propositions h
  obtain ⟨hcut, -, hwith⟩ := words_of_spells (w := "and") hv.outputs
    (fun q hq => (hspells q hq).imp fun e he => ⟨he.1, he.2.1⟩) (by decide)
  obtain ⟨p, qs, rfl⟩ := List.exists_cons_of_ne_nil hne
  refine ⟨?_, hwith⟩
  rw [hcut]
  refine isConsequent_row fun q hq => ?_
  obtain ⟨e, he, hq, hany⟩ := hspells q hq
  exact hq.isClause hv he (hany rfl)

end Parts

/-- A rule given by codes is read of its text, where all names are plain. -/
theorem exists_parse {v : Vocabulary} (hv : v.IsPlain) {row : List Value} {coded : CodedRule}
    (h : ofCodes v row = .ok coded) :
    ∃ inputs outputs p ps r, IsRow v row inputs outputs coded.weight coded.connective ∧
      (Rule.parse v coded.text).value = .ok r ∧ r.antecedent = some (Condition.row coded.connective p ps) ∧
      List.Forall₂ (fun x q => Means x.1 x.2 q) (chosen v.inputs inputs) (p :: ps) ∧
      List.Forall₂ (fun x q => Means x.1 x.2 q) (chosen v.outputs outputs) r.conclusions := by
  obtain ⟨inputs, outputs, hrow, hconditions, hconclusions, hne, hne'⟩ := exists_row h
  obtain ⟨p, ps, hps, hderives, hthen⟩ := derives_of_propositions hv hconditions hne coded.connective
  obtain ⟨hconsequent, hwith⟩ := isConsequent_of_propositions hv hconclusions hne'
  have hrule := Vocabulary.isRule_of_parts hderives hconsequent hthen hwith (isWord_weightShown coded.weight)
  rw [← text_eq] at hrule
  obtain ⟨r, hparse, hc, hr, -⟩ := Rule.parse_of_isRule hrule
  refine ⟨inputs, outputs, p, ps, r, hrow, hparse, hc, ?_, ?_⟩
  · rw [← hps]
    exact (forall₂_of_propositions hconditions).imp fun _ _ hmeans => hmeans.1
  · rw [hr]
    exact (forall₂_of_propositions hconclusions).imp fun _ _ hmeans => hmeans.1

end CodedRule

/-! ## §5 Engines -/

/-- The name is a plain word. -/
def Name.IsPlain : Name → Prop
  | .text s => IsPlainWord s
  | .other _ => False

theorem Name.IsPlain.isPlainWord {n : Name} (h : n.IsPlain) : IsPlainWord n.asText := by
  cases n with
  | text s => exact h
  | other v => exact h.elim

theorem Name.IsPlain.isText {n : Name} (h : n.IsPlain) : n.isText = true := by
  cases n with
  | text s => rfl
  | other v => exact h.elim

theorem Name.IsPlain.eq_text {n : Name} (h : n.IsPlain) : n = .text n.asText := by
  cases n with
  | text s => rfl
  | other v => exact h.elim

/-- The variable and its terms have plain names. -/
structure Variable.IsPlain (v : Variable Float) : Prop where
  name : v.name.IsPlain
  terms : ∀ t ∈ v.terms, t.name.IsPlain

namespace Engine

/-- All names are plain, and those of the variables tell inputs apart, and outputs. -/
structure HasPlainNames (e : Engine Float) : Prop where
  members : ∀ v ∈ e.members, v.base.IsPlain
  distinctInputs : e.inputNames.Nodup
  distinctOutputs : e.outputNames.Nodup

end Engine

namespace Variable.IsPlain

variable {v : Variable Float}

/-- Plain names of terms that differ as names differ as texts. -/
theorem nodup_texts (h : v.IsPlain) (hdiffer : v.TermsDiffer) : (v.terms.map fun t => t.name.asText).Nodup := by
  rw [List.nodup_iff_count_le_one]
  intro s
  have hcount : (v.terms.map fun t => t.name.asText).count s = v.terms.countP fun t => t.name == .text s := by
    rw [List.count, List.countP_map]
    refine List.countP_congr fun t ht => ?_
    rw [(h.terms t ht).eq_text]
    simp
  rw [hcount]
  exact hdiffer s

theorem entry_isPlain (h : v.IsPlain) (hdiffer : v.TermsDiffer) (isOutput : Bool) :
    (Variables.entry (fun _ => true) v isOutput).IsPlain := by
  have hterms : (Variables.entry (fun _ => true) v isOutput).terms =
      v.terms.map fun t => ⟨t.id, t.name.asText⟩ := by
    rw [Variables.entry, List.filter_true]
  refine ⟨h.name.isPlainWord, ?_, ?_⟩
  · rw [hterms]
    intro t ht
    obtain ⟨u, hu, rfl⟩ := List.mem_map.1 ht
    exact (h.terms u hu).isPlainWord
  · rw [hterms, List.map_map]
    exact h.nodup_texts hdiffer

/-- Rules can speak of all terms. -/
theorem entry_eq (h : v.IsPlain) (isOutput : Bool) :
    Variables.entry Name.isText v isOutput = Variables.entry (fun _ => true) v isOutput := by
  rw [Variables.entry, Variables.entry, List.filter_true,
    List.filter_eq_self.2 fun t ht => (h.terms t ht).isText]

end Variable.IsPlain

/-! ### Rows of variables -/

section Entries

variable {ι : Type} {base : ι → Variable Float} {vs : List ι} (isOutput : Bool)

/-- Rules can speak of all variables and terms. -/
theorem entries_eq (h : ∀ v ∈ vs, (base v).IsPlain) :
    (vs.filter fun v => (base v).name.isText).map (fun v => Variables.entry Name.isText (base v) isOutput) =
      vs.map fun v => Variables.entry (fun _ => true) (base v) isOutput := by
  rw [List.filter_eq_self.2 fun v hv => (h v hv).name.isText]
  exact List.map_congr_left fun v hv => (h v hv).entry_eq isOutput

theorem entries_isPlain (h : ∀ v ∈ vs, (base v).IsPlain) (hdiffer : ∀ v ∈ vs, (base v).TermsDiffer) :
    ∀ e ∈ vs.map fun v => Variables.entry (fun _ => true) (base v) isOutput, e.IsPlain := by
  intro e he
  obtain ⟨v, hv, rfl⟩ := List.mem_map.1 he
  exact (h v hv).entry_isPlain (hdiffer v hv) isOutput

/-- Plain names that differ are different texts. -/
theorem nodup_entryNames (h : ∀ v ∈ vs, (base v).IsPlain) (hnames : (vs.map fun v => (base v).name).Nodup) :
    ((vs.map fun v => Variables.entry (fun _ => true) (base v) isOutput).map fun e => e.ref.name).Nodup := by
  have hplain : ∀ n ∈ vs.map fun v => (base v).name, n.IsPlain := by
    intro n hn
    obtain ⟨v, hv, rfl⟩ := List.mem_map.1 hn
    exact (h v hv).name
  have htexts : ((vs.map fun v => (base v).name).map Name.asText).Nodup := by
    refine hnames.map_on fun m hm n hn heq => ?_
    rw [(hplain m hm).eq_text, (hplain n hn).eq_text, heq]
  rw [List.map_map] at htexts ⊢
  exact htexts

end Entries

namespace Engine

variable {e : Engine Float}

theorem HasPlainNames.input (h : e.HasPlainNames) : ∀ v ∈ e.inputs, v.IsPlain :=
  fun v hv => h.members (.input v) (List.mem_append_left _ (List.mem_map_of_mem hv))

theorem HasPlainNames.output (h : e.HasPlainNames) : ∀ v ∈ e.outputs, v.toVariable.IsPlain :=
  fun v hv => h.members (.output v) (List.mem_append_right _ (List.mem_map_of_mem hv))

theorem inventory_eq (e : Engine Float) : e.inventory =
    ⟨e.inputs.map fun v => Variables.entry (fun _ => true) v false,
      e.outputs.map fun v => Variables.entry (fun _ => true) v.toVariable true⟩ := by
  rw [inventory, Variables.inventory, Variables.entries, List.filter_true, List.filter_true]
  rfl

theorem HasPlainNames.vocabulary_eq (h : e.HasPlainNames) : e.vocabulary = e.inventory := by
  rw [inventory_eq, ← entries_eq false h.input, ← entries_eq true h.output]
  rfl

theorem HasPlainNames.inventory_isPlain (h : e.HasPlainNames) (hdiffer : e.TermsDiffer) :
    e.inventory.IsPlain := by
  have hinputs : ∀ v ∈ e.inputs, v.TermsDiffer :=
    fun v hv => hdiffer (.input v) (List.mem_append_left _ (List.mem_map_of_mem hv))
  have houtputs : ∀ v ∈ e.outputs, v.toVariable.TermsDiffer :=
    fun v hv => hdiffer (.output v) (List.mem_append_right _ (List.mem_map_of_mem hv))
  rw [inventory_eq]
  exact ⟨entries_isPlain false h.input hinputs, entries_isPlain true h.output houtputs,
    nodup_entryNames false h.input h.distinctInputs, nodup_entryNames true h.output h.distinctOutputs⟩

/-- A row of codes that an engine with plain names accepts is the text of a rule that the engine loads. Its
antecedent joins the propositions of the inputs that are not left out, grouped to the left, and its conclusions are
the propositions of the outputs that are not left out. -/
theorem parse_coded (hplain : e.HasPlainNames) (hdiffer : e.TermsDiffer) {row : List Value} {coded : CodedRule}
    (h : CodedRule.ofCodes e.inventory row = .ok coded) :
    ∃ inputs outputs weight k p ps r, CodedRule.IsRow e.inventory row inputs outputs weight k ∧
      (Rule.parse e.vocabulary coded.text).value = .ok r ∧ r.antecedent = some (Condition.row k p ps) ∧
      List.Forall₂ (fun x q => CodedRule.Means x.1 x.2 q) (CodedRule.chosen e.inventory.inputs inputs) (p :: ps) ∧
      List.Forall₂ (fun x q => CodedRule.Means x.1 x.2 q) (CodedRule.chosen e.inventory.outputs outputs)
        r.conclusions := by
  obtain ⟨inputs, outputs, p, ps, r, hrow, hparse, hc, hin, hout⟩ :=
    CodedRule.exists_parse (hplain.inventory_isPlain hdiffer) h
  rw [hplain.vocabulary_eq]
  exact ⟨inputs, outputs, coded.weight, coded.connective, p, ps, r, hrow, hparse, hc, hin, hout⟩

/-! ### An engine with two inputs -/

deriving instance DecidableEq for CodedRule

/-- An input with two terms. -/
def lampInput (id : Nat) (name : Name) : Variable Float :=
  { Variable.empty name 0.0 1.0 with
    id, terms := [⟨0, "DARK", .constant 0.0⟩, ⟨1, "BRIGHT", .constant 1.0⟩], nextTerm := 2 }

/-- The inputs `a` and `b`, and the output `y` of the relay. -/
def lamps : Engine Float where
  name := "lamps"
  store := ⟨[lampInput 0 "a", lampInput 2 "b"], [relayOutput], [], [], 3⟩
  blocks := []
  state := .idle

theorem members_lamps : lamps.members =
    [.input (lampInput 0 "a"), .input (lampInput 2 "b"), .output relayOutput] := rfl

theorem hasPlainNames_lamps : lamps.HasPlainNames where
  members := by
    have hplain : ∀ w ∈ ["a", "b", "y", "DARK", "BRIGHT", "LOW", "HIGH"], IsPlainWord w := by decide
    simp only [List.forall_mem_cons] at hplain
    obtain ⟨ha, hb, hy, hdark, hbright, hlow, hhigh, -⟩ := hplain
    simp only [members_lamps, List.forall_mem_cons]
    exact ⟨⟨ha, by simpa [AnyVariable.base, lampInput] using ⟨hdark, hbright⟩⟩,
      ⟨hb, by simpa [AnyVariable.base, lampInput] using ⟨hdark, hbright⟩⟩,
      ⟨hy, by simpa [AnyVariable.base, relayOutput] using ⟨hlow, hhigh⟩⟩, fun _ hv => absurd hv List.not_mem_nil⟩
  distinctInputs := by
    have hnames : lamps.inputNames = [.text "a", .text "b"] := rfl
    rw [hnames]
    simp
  distinctOutputs := List.nodup_singleton _

theorem termsDiffer_lamps : lamps.TermsDiffer := by
  have hinput (id : Nat) (name : Name) : (lampInput id name).TermsDiffer :=
    Variable.termsDiffer_of_texts ["DARK", "BRIGHT"] rfl (by decide)
  have houtput : relayOutput.toVariable.TermsDiffer :=
    Variable.termsDiffer_of_texts ["LOW", "HIGH"] rfl (by decide)
  rw [TermsDiffer, members_lamps]
  simp only [List.forall_mem_cons]
  exact ⟨hinput 0 "a", hinput 2 "b", houtput, fun _ hv => absurd hv List.not_mem_nil⟩

/-- `a is not very DARK or b is any`, and the second term of `y`. -/
def lampRow : List Value := [.float (-1.2), .float 0.99, .int 2, .float 0.5, .int 2]

def lampRule : CodedRule where
  conditions := [⟨⟨0, "a", false⟩, [.not, .very], some ⟨0, "DARK"⟩⟩, ⟨⟨2, "b", false⟩, [.any], none⟩]
  connective := .or
  conclusions := [⟨⟨1, "y", true⟩, [], some ⟨1, "HIGH"⟩⟩]
  weight := 0.5

theorem parse_coded_lamps :
    lampRule.text = "if a is not very DARK or b is any then y is HIGH with 0.5" ∧
      ∃ inputs outputs weight k p ps r, CodedRule.IsRow lamps.inventory lampRow inputs outputs weight k ∧
        (Rule.parse lamps.vocabulary lampRule.text).value = .ok r ∧ r.antecedent = some (Condition.row k p ps) ∧
        List.Forall₂ (fun x q => CodedRule.Means x.1 x.2 q) (CodedRule.chosen lamps.inventory.inputs inputs)
          (p :: ps) ∧
        List.Forall₂ (fun x q => CodedRule.Means x.1 x.2 q) (CodedRule.chosen lamps.inventory.outputs outputs)
          r.conclusions := by
  have hcoded : (CodedRule.ofCodes lamps.inventory lampRow).toOption = some lampRule := by decide +kernel
  exact ⟨by decide +kernel, parse_coded hasPlainNames_lamps termsDiffer_lamps (eq_ok_of_toOption hcoded)⟩

/-- A code of `a` that is not zero, and the first terms of `b` and `y`. -/
def smallRow : List Value := [.float 1e-10, .int 1, .int 1, .float 1.0, .int 1]

def smallRule : CodedRule where
  conditions := [⟨⟨2, "b", false⟩, [], some ⟨0, "DARK"⟩⟩]
  connective := .and
  conclusions := [⟨⟨1, "y", true⟩, [], some ⟨0, "LOW"⟩⟩]
  weight := 1.0

/-- A code that is not zero leaves its input out nevertheless. -/
theorem omitted_smallRow :
    lamps.HasPlainNames ∧ lamps.TermsDiffer ∧ CodedRule.ofCodes lamps.inventory smallRow = .ok smallRule ∧
      (∃ r c, (Rule.parse lamps.vocabulary smallRule.text).value = .ok r ∧ r.antecedent = some c ∧
        c.propositions.length = 1) ∧
      smallRow.mapM Value.toScalar = .ok [1e-10, 1.0, 1.0, 1.0, 1.0] ∧
      ((lamps.inventory.inputs.zip [1e-10, 1.0]).filter fun x => x.2 != 0.0).length = 2 := by
  have hcoded : (CodedRule.ofCodes lamps.inventory smallRow).toOption = some smallRule := by decide +kernel
  have hread : ((Rule.parse lamps.vocabulary smallRule.text).value.toOption.bind Rule.antecedent) =
      some (.proposition ⟨⟨2, "b", false⟩, [], some ⟨0, "DARK"⟩⟩) := by decide +kernel
  have hscalars : (smallRow.mapM Value.toScalar).toOption = some [1e-10, 1.0, 1.0, 1.0, 1.0] := by decide +kernel
  obtain ⟨r, hr, hc⟩ := Option.bind_eq_some_iff.1 hread
  exact ⟨hasPlainNames_lamps, termsDiffer_lamps, eq_ok_of_toOption hcoded,
    ⟨r, _, eq_ok_of_toOption hr, hc, rfl⟩, eq_ok_of_toOption hscalars, by decide +kernel⟩

end Engine

end FuzzyInference
