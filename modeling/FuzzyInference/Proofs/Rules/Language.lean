import FuzzyInference.Proofs.Reading

/-!
# The language of rules

A rule is a row of words: `if`, an antecedent, `then` and a consequent, and perhaps `with` and a weight. The
words of antecedents and consequents have a grammar of their own, in which a parenthesis is a word and names
are those of the variables and terms that the rule can speak of. Loading accepts exactly the rules of this
language, and keeps the tree of the antecedent, the conclusions and the weight.

Names may collide with words of the language. What a word means is decided by where it stands: a term hides a
hedge of its name in an antecedent, but not in a consequent, where the last word of a clause is the term; a
variable called `not` is out of reach of antecedents; and no name called `and` is in reach of consequents.

The plan of this module:

* the grammar of antecedents, consequents and rules;
* antecedents: soundness along the recursive descent of the reader, completeness by induction on derivations;
* consequents, clause by clause;
* the parts of a rule, and rules.

## Main statements

* `conditionOfWords_eq_ok_iff`: the antecedents that are read, and their trees
* `readConclusions_eq_ok_iff`: the consequents that are read, and their conclusions
* `Rule.load_spec`: the rules that are loaded, and what is kept of them
-/

namespace FuzzyInference

open Checked

/-! ## §1 The language -/

namespace ConditionReader

/-- The words name hedges and a term of the variable, or hedges of which the last one matches everything. -/
inductive Targets (e : VocabularyEntry) : List String → List Hedge → Option TermRef → Prop
  | term {w : String} {t : TermRef} (ht : e.term? w = some t) : Targets e [w] [] (some t)
  /-- Unless a term has its name. -/
  | any (hterm : e.term? "any" = none) : Targets e ["any"] [.any] none
  /-- Any other hedge that no term hides, before more words. -/
  | hedge {h : Hedge} {ws : List String} {hedges : List Hedge} {t : Option TermRef} (hany : h ≠ .any)
      (hterm : e.term? h.name = none) (hws : Targets e ws hedges t) : Targets e (h.name :: ws) (h :: hedges) t

/-- The kinds of phrases of an antecedent. -/
inductive Phrase
  /-- Conditions joined by a connective. -/
  | chain (k : Connective)
  | factor

/-- What a connective joins. -/
def Phrase.operand : Connective → Phrase
  | .or => .chain .and
  | .and => .factor

/-- The words that start a factor which is no proposition. -/
def openers : List String := ["not", "("]

/-- The words form a phrase of this kind, with this tree. -/
inductive Derives (v : Vocabulary) : Phrase → List String → Condition → Prop
  /-- A chain of one operand. -/
  | operand {k : Connective} {ws : List String} {c : Condition} (hc : Derives v (.operand k) ws c) :
      Derives v (.chain k) ws c
  /-- A chain goes on with its connective and an operand, and groups to the left. -/
  | join {k : Connective} {ws us : List String} {a b : Condition} (ha : Derives v (.chain k) ws a)
      (hb : Derives v (.operand k) us b) : Derives v (.chain k) (ws ++ k.word :: us) (.join k a b)
  | negation {ws : List String} {c : Condition} (hc : Derives v .factor ws c) :
      Derives v .factor ("not" :: ws) (.negation c)
  /-- A condition in parentheses. -/
  | group {ws : List String} {c : Condition} (hc : Derives v (.chain .or) ws c) :
      Derives v .factor ("(" :: (ws ++ [")"])) c
  | proposition {name : String} {e : VocabularyEntry} {ws : List String} {hedges : List Hedge}
      {t : Option TermRef} (hname : name ∉ openers) (he : v.find? name = some e) (hws : Targets e ws hedges t) :
      Derives v .factor (name :: "is" :: ws) (.proposition ⟨e.ref, hedges, t⟩)

end ConditionReader

/-- The words name hedges, none of which matches everything, and a term of the variable. The last word is the
term, also where it names a hedge. -/
inductive VocabularyEntry.Concludes (e : VocabularyEntry) : List String → List Hedge → TermRef → Prop
  | term {w : String} {t : TermRef} (ht : e.term? w = some t) : e.Concludes [w] [] t
  | hedge {h : Hedge} {ws : List String} {hedges : List Hedge} {t : TermRef} (hany : h ≠ .any)
      (hws : e.Concludes ws hedges t) : e.Concludes (h.name :: ws) (h :: hedges) t

namespace Vocabulary

variable (v : Vocabulary)

/-- The words form a clause about an output, none of them `and`. -/
inductive IsClause : List String → Proposition → Prop
  | intro {name : String} {e : VocabularyEntry} {ws : List String} {hedges : List Hedge} {t : TermRef}
      (he : v.findOutput? name = some e) (hws : e.Concludes ws hedges t) (hand : "and" ∉ name :: "is" :: ws) :
      IsClause (name :: "is" :: ws) ⟨e.ref, hedges, some t⟩

/-- The words form clauses joined by `and`. -/
inductive IsConsequent : List String → List Proposition → Prop
  | last {ws : List String} {p : Proposition} (hp : v.IsClause ws p) : IsConsequent ws [p]
  | and {ws us : List String} {p : Proposition} {ps : List Proposition} (hp : v.IsClause ws p)
      (hps : IsConsequent us ps) : IsConsequent (ws ++ "and" :: us) (p :: ps)

/-- The words form a rule with this antecedent, these conclusions and this weight. The antecedent ends before
the first `then`, and parentheses in either part are set apart by spaces before it is cut into words. -/
inductive IsRule : List String → Condition → List Proposition → Option Float → Prop
  /-- A consequent that no weight follows is free of `with`. -/
  | unweighted {as cs : List String} {c : Condition} {ps : List Proposition} (hthen : "then" ∉ as)
      (hwith : "with" ∉ cs) (hc : ConditionReader.Derives v (.chain .or) (ruleWords (Text.unwords as)) c)
      (hps : v.IsConsequent (ruleWords (Text.unwords cs)) ps) : IsRule ("if" :: (as ++ "then" :: cs)) c ps none
  /-- The weight is a number, so that no `with` stands after the one before it. -/
  | weighted {as cs : List String} {w : String} {x : Float} {c : Condition} {ps : List Proposition}
      (hthen : "then" ∉ as) (hw : Scalar.read? w = some x)
      (hc : ConditionReader.Derives v (.chain .or) (ruleWords (Text.unwords as)) c)
      (hps : v.IsConsequent (ruleWords (Text.unwords cs)) ps) :
      IsRule ("if" :: (as ++ "then" :: (cs ++ ["with", w]))) c ps (some x)

end Vocabulary

/-! ### Words that name hedges -/

theorem Hedge.ofName?_eq_some_iff {w : String} {h : Hedge} : Hedge.ofName? w = some h ↔ w = h.name := by
  constructor
  · intro hw
    obtain ⟨before, after, hentries, -⟩ := List.lookup_eq_some_iff.1 hw
    have hmem : (w, h) ∈ Hedge.all.map fun h => (h.name, h) := by
      rw [show Hedge.all.map (fun h => (h.name, h)) = before ++ (w, h) :: after from hentries]
      exact List.mem_append_right _ List.mem_cons_self
    obtain ⟨h', -, heq⟩ := List.mem_map.1 hmem
    cases heq
    rfl
  · rintro rfl
    cases h <;> decide

/-! ## §2 Antecedents -/

namespace ConditionReader

/-! ### Soundness -/

/-- What a reader takes of the words is a phrase of this kind. -/
def Sound (v : Vocabulary) (n : Phrase) {ws : List String} (r : Reading ws) : Prop :=
  ∀ c rest, r = .ok (c, rest) → ∃ us, us ++ rest.1 = ws ∧ Derives v n us c

namespace Sound

variable {v : Vocabulary} {n : Phrase} {ws : List String}

theorem error (fault : AntecedentFault) : Sound v n (.error fault : Reading ws) := nofun

theorem ok {c : Condition} {rest : Fewer ws} {us : List String} (hws : us ++ rest.1 = ws)
    (h : Derives v n us c) : Sound v n (.ok (c, rest)) := by
  intro c' rest' heq
  cases heq
  exact ⟨us, hws, h⟩

end Sound

theorem targets_of_target {e : VocabularyEntry} {ws : List String} {hedges : List Hedge} {t : Option TermRef}
    {rest : Fewer ws} (h : target e ws = .ok (hedges, t, rest)) :
    ∃ us, us ++ rest.1 = ws ∧ Targets e us hedges t := by
  induction ws generalizing hedges t with
  | nil => cases h
  | cons w ws ih =>
    unfold target at h
    split at h
    · rename_i u hu
      cases h
      exact ⟨[w], rfl, .term hu⟩
    · rename_i hterm
      -- a hedge counts only where no term of the variable has its name
      split at h
      · cases h
      · rename_i hany
        cases h
        obtain rfl := Hedge.ofName?_eq_some_iff.1 hany
        exact ⟨[_], rfl, .any hterm⟩
      · rename_i hedge hany hname
        obtain rfl := Hedge.ofName?_eq_some_iff.1 hname
        split at h
        · cases h
        · rename_i hedges' t' rest' _ htarget
          cases h
          obtain ⟨us, hws, htargets⟩ := ih htarget
          exact ⟨hedge.name :: us, congrArg (hedge.name :: ·) hws, .hedge hany hterm htargets⟩

theorem derives_proposition (v : Vocabulary) {name : String} (hname : name ∉ openers) (ws : List String) :
    Sound v .factor (proposition v name ws) := by
  unfold proposition
  split
  · exact .error _
  · rename_i e he
    split
    · exact .error _
    · rename_i w rest
      split
      · rename_i his
        split
        · exact .error _
        · rename_i hedges t rest' _ htarget
          obtain ⟨us, hws, htargets⟩ := targets_of_target htarget
          refine .ok ?_ (.proposition hname he htargets)
          rw [his]
          exact congrArg (name :: "is" :: ·) hws
      · exact .error _

mutual

/-- Conditions of one level. The proof descends as the reader does, with the same measures. -/
theorem derives_chain (v : Vocabulary) (k : Connective) (ws : List String) :
    Sound v (.chain k) (chain v k ws) := by
  rw [chain]
  split
  · exact .error _
  · rename_i left rest hlt hleft
    obtain ⟨us, hws, hus⟩ := derives_operand v k ws left _ hleft
    -- what follows extends the chain of one operand
    split
    · exact .error _
    · rename_i c rest' _ hrest
      obtain ⟨vs, hvs, hc⟩ := derives_chainRest v k left rest (.operand hus) c _ hrest
      refine .ok ?_ hc
      rw [List.append_assoc, hvs]
      exact hws
termination_by 8 * ws.length + rank k
decreasing_by
  · cases k <;> simp [rank]
  · omega

theorem derives_operand (v : Vocabulary) (k : Connective) (ws : List String) :
    Sound v (.operand k) (operand v k ws) := by
  rw [operand.eq_def]
  -- the operands of `or` are chains of `and`, those of `and` are factors
  match k with
  | .or => exact derives_chain v .and ws
  | .and => exact derives_factor v ws
termination_by 8 * ws.length + (rank k - 1)
decreasing_by all_goals simp [rank]

/-- The chain on the left was read before. -/
theorem derives_chainRest (v : Vocabulary) (k : Connective) (left : Condition) (ws : List String)
    {us : List String} (hleft : Derives v (.chain k) us left) :
    ∀ c rest, chainRest v k left ws = .ok (c, rest) →
      ∃ vs, vs ++ rest.1 = ws ∧ Derives v (.chain k) (us ++ vs) c := by
  intro c rest h
  match ws with
  | [] =>
    rw [chainRest] at h
    cases h
    exact ⟨[], rfl, by rwa [List.append_nil]⟩
  | w :: ws =>
    rw [chainRest] at h
    split at h
    · rename_i hword
      split at h
      · cases h
      · rename_i right rest₁ hlt hright
        obtain ⟨xs, hws, hxs⟩ := derives_operand v k ws right _ hright
        split at h
        · cases h
        · rename_i c' rest₂ _ hrest
          obtain ⟨vs, hvs, hc⟩ := derives_chainRest v k (.join k left right) rest₁ (.join hleft hxs) c' _ hrest
          cases h
          refine ⟨w :: (xs ++ vs), ?_, ?_⟩
          · rw [List.cons_append, List.append_assoc, hvs]
            exact congrArg (w :: ·) hws
          · rw [hword]
            simpa using hc
    · cases h
      exact ⟨[], rfl, by rwa [List.append_nil]⟩
termination_by 8 * ws.length
decreasing_by
  · cases k <;> simp only [List.length_cons, rank] <;> omega
  · simp only [List.length_cons]; omega

theorem derives_factor (v : Vocabulary) (ws : List String) : Sound v .factor (factor v ws) := by
  match ws with
  | [] =>
    rw [factor]
    exact .error _
  | w :: ws =>
    rw [factor]
    split
    · rename_i hnot
      split
      · exact .error _
      · rename_i operand rest _ hoperand
        obtain ⟨us, hws, hus⟩ := derives_factor v ws operand _ hoperand
        refine .ok ?_ (.negation hus)
        rw [hnot]
        exact congrArg ("not" :: ·) hws
    · rename_i hnot
      split
      · rename_i hopening
        split
        · exact .error _
        · rename_i inner rest _ hinner
          obtain ⟨us, hws, hus⟩ := derives_chain v .or ws inner _ hinner
          split
          · exact .error _
          · refine .ok ?_ (.group hus)
            rw [hopening, List.cons_append, List.append_assoc]
            exact congrArg ("(" :: ·) hws
          · exact .error _
      · rename_i hopening
        exact derives_proposition v (by simp [openers, hnot, hopening]) ws
termination_by 8 * ws.length
decreasing_by
  · simp only [List.length_cons, rank]; omega
  · simp only [List.length_cons]; omega

end

/-! ### Completeness -/

/-- The reader gives this condition and leaves these words. -/
def Reads {ws : List String} (r : Reading ws) (c : Condition) (rest : List String) : Prop :=
  ∃ h, r = .ok (c, ⟨rest, h⟩)

/-- The rest of a chain gives this condition and leaves these words. -/
def Continues (v : Vocabulary) (k : Connective) (left : Condition) (ws : List String) (c : Condition)
    (rest : List String) : Prop :=
  ∃ h, chainRest v k left ws = .ok (c, ⟨rest, h⟩)

/-- A chain ends before a word that is not its connective. -/
theorem continues_nil (v : Vocabulary) {k : Connective} {ws : List String} (h : ws.head? ≠ some k.word)
    (left : Condition) : Continues v k left ws left ws := by
  cases ws with
  | nil => exact ⟨Nat.le_refl _, by rw [chainRest]⟩
  | cons w ws =>
    have hne : w ≠ k.word := by simpa using h
    exact ⟨Nat.le_refl _, by rw [chainRest, if_neg hne]⟩

theorem continues_cons {v : Vocabulary} {k : Connective} {a b c : Condition} {ws mid rest : List String}
    (hb : Reads (operand v k ws) b mid) (h : Continues v k (.join k a b) mid c rest) :
    Continues v k a (k.word :: ws) c rest := by
  obtain ⟨hmid, hb⟩ := hb
  obtain ⟨hrest, h⟩ := h
  refine ⟨?_, by rw [chainRest, if_pos rfl]; simp only [hb, h]⟩
  simp only [List.length_cons]
  omega

theorem reads_chain {v : Vocabulary} {k : Connective} {a c : Condition} {ws mid rest : List String}
    (ha : Reads (operand v k ws) a mid) (h : Continues v k a mid c rest) : Reads (chain v k ws) c rest := by
  obtain ⟨hmid, ha⟩ := ha
  obtain ⟨hrest, h⟩ := h
  exact ⟨Nat.lt_of_le_of_lt hrest hmid, by rw [chain]; simp only [ha, h]⟩

theorem reads_negation {v : Vocabulary} {c : Condition} {ws rest : List String}
    (h : Reads (factor v ws) c rest) : Reads (factor v ("not" :: ws)) (.negation c) rest := by
  obtain ⟨hrest, h⟩ := h
  refine ⟨?_, by rw [factor, if_pos rfl]; simp only [h]⟩
  simp only [List.length_cons]
  omega

theorem reads_group {v : Vocabulary} {c : Condition} {ws rest : List String}
    (h : Reads (chain v .or ws) c (")" :: rest)) : Reads (factor v ("(" :: ws)) c rest := by
  obtain ⟨hrest, h⟩ := h
  refine ⟨?_, by rw [factor, if_neg (by decide), if_pos rfl]; simp only [h]⟩
  simp only [List.length_cons] at hrest ⊢
  omega

theorem target_eq_of_targets {e : VocabularyEntry} {ws : List String} {hedges : List Hedge}
    {t : Option TermRef} (h : Targets e ws hedges t) (rest : List String) :
    ∃ hrest, target e (ws ++ rest) = .ok (hedges, t, ⟨rest, hrest⟩) := by
  induction h with
  | term ht => exact ⟨by simp, by simp only [List.cons_append, target, ht]; rfl⟩
  | any hterm =>
    have hname : Hedge.ofName? "any" = some .any := Hedge.ofName?_eq_some_iff.2 rfl
    exact ⟨by simp, by simp only [List.cons_append, target, hterm, hname]; rfl⟩
  | @hedge h _ _ _ hany hterm _ ih =>
    obtain ⟨hrest, ih⟩ := ih
    have hname : Hedge.ofName? h.name = some h := Hedge.ofName?_eq_some_iff.2 rfl
    refine ⟨by simp only [List.cons_append, List.length_cons]; omega, ?_⟩
    simp only [List.cons_append, target, hterm, hname, ih]

theorem reads_proposition {v : Vocabulary} {name : String} {e : VocabularyEntry} {ws : List String}
    {hedges : List Hedge} {t : Option TermRef} (hname : name ∉ openers) (he : v.find? name = some e)
    (hws : Targets e ws hedges t) (rest : List String) :
    Reads (factor v (name :: "is" :: (ws ++ rest))) (.proposition ⟨e.ref, hedges, t⟩) rest := by
  obtain ⟨hrest, htarget⟩ := target_eq_of_targets hws rest
  simp only [openers, List.mem_cons, List.not_mem_nil, or_false, not_or] at hname
  refine ⟨by simp only [List.length_cons]; omega, ?_⟩
  rw [factor, if_neg hname.1, if_neg hname.2]
  simp only [proposition, he, if_true, htarget]

/-- Where chains of these connectives end: one of `or` takes a whole chain of `and` as an operand. -/
def EndsBefore : Connective → List String → Prop
  | .or, rest => rest.head? ≠ some "and"
  | .and, _ => True

/-- A phrase is read where the word that follows does not extend it. A chain, which a further operand extends,
is read like the rest of a chain of which it is the left operand. -/
def Complete (v : Vocabulary) : Phrase → List String → Condition → Prop
  | .chain k => fun ws c => ∀ rest c' rest', EndsBefore k rest → Continues v k c rest c' rest' →
      Reads (chain v k (ws ++ rest)) c' rest'
  | .factor => fun ws c => ∀ rest, Reads (factor v (ws ++ rest)) c rest

theorem reads_operand {v : Vocabulary} {k : Connective} {ws : List String} {c : Condition}
    (h : Complete v (.operand k) ws c) {rest : List String} (hrest : EndsBefore k rest) :
    Reads (operand v k (ws ++ rest)) c rest := by
  cases k with
  | or =>
    rw [operand]
    exact h rest c rest trivial (continues_nil v (k := .and) hrest c)
  | and =>
    rw [operand]
    exact h rest

/-- What is derived is read, by induction on the derivation. -/
theorem completes {v : Vocabulary} {n : Phrase} {ws : List String} {c : Condition} (h : Derives v n ws c) :
    Complete v n ws c := by
  induction h with
  | operand _ ih =>
    intro rest c' rest' hrest hcontinues
    exact reads_chain (reads_operand ih hrest) hcontinues
  | @join k ws us a b _ _ iha ihb =>
    intro rest c' rest' hrest hcontinues
    have hword : EndsBefore k (k.word :: (us ++ rest)) := by cases k <;> simp [EndsBefore, Connective.word]
    -- the connective and the operand on its right belong to the rest of the chain on its left
    rw [List.append_assoc]
    exact iha _ c' rest' hword (continues_cons (reads_operand ihb hrest) hcontinues)
  | negation _ ih => exact fun rest => reads_negation (ih rest)
  | group _ ih =>
    intro rest
    rw [List.cons_append, List.append_assoc]
    exact reads_group (ih _ _ _ (by simp [EndsBefore]) (continues_nil v (by simp [Connective.word]) _))
  | proposition hname he hws => exact fun rest => reads_proposition hname he hws rest

/-- A whole antecedent is read up to a word that extends nothing. -/
theorem reads_of_derives {v : Vocabulary} {ws : List String} {c : Condition}
    (h : Derives v (.chain .or) ws c) (rest : List String) (hand : rest.head? ≠ some "and")
    (hor : rest.head? ≠ some "or") : Reads (chain v .or (ws ++ rest)) c rest :=
  completes h rest c rest hand (continues_nil v hor c)

end ConditionReader

/-- The words of which the reader takes all are those that the grammar derives. -/
theorem conditionOfWords_eq_ok_iff {v : Vocabulary} {ws : List String} {c : Condition} :
    conditionOfWords v ws = .ok c ↔ ConditionReader.Derives v (.chain .or) ws c := by
  constructor
  · intro h
    unfold conditionOfWords at h
    split at h
    · cases h
    · split at h
      · cases h
      · rename_i hread
        obtain ⟨us, hws, hus⟩ := ConditionReader.derives_chain v .or _ _ _ hread
        cases h
        rw [← hws, List.append_nil]
        exact hus
      · cases h
  · intro h
    have hreads := ConditionReader.reads_of_derives h [] nofun nofun
    rw [List.append_nil] at hreads
    obtain ⟨hlt, hread⟩ := hreads
    unfold conditionOfWords
    split
    · cases hlt
    · simp only [hread]

theorem readCondition_eq_ok_iff {v : Vocabulary} {antecedent : String} {c : Condition} :
    readCondition v antecedent = .ok c ↔
      ConditionReader.Derives v (.chain .or) (ruleWords antecedent) c := by
  rw [← conditionOfWords_eq_ok_iff, readCondition]
  -- only the error is renamed
  cases conditionOfWords v (ruleWords antecedent) <;> simp [Except.mapError]

/-! ## §3 Consequents -/

theorem readTarget_eq_ok_iff {e : VocabularyEntry} (consequent : String) {ws : List String}
    {hedges : List Hedge} {t : TermRef} :
    readTarget e consequent ws = .ok (hedges, t) ↔ e.Concludes ws hedges t := by
  constructor
  · intro h
    -- every word but the last is a hedge
    induction ws using readTarget.induct e generalizing hedges with
    | case1 => cases h
    | case2 w u hu =>
      simp only [readTarget, hu] at h
      cases h
      exact .term hu
    | case3 w hw =>
      simp only [readTarget, hw] at h
      cases h
    | case4 w rest hne hw =>
      rw [readTarget.eq_3 _ _ _ _ hne, hw] at h
      cases h
    | case5 w rest hne hw =>
      rw [readTarget.eq_3 _ _ _ _ hne, hw] at h
      cases h
    | case6 w rest hne hedge hany hw ih =>
      obtain rfl := Hedge.ofName?_eq_some_iff.1 hw
      rw [readTarget.eq_3 _ _ _ _ hne, hw] at h
      cases hedge with
      | any => exact absurd rfl hany
      | _ =>
        obtain ⟨⟨hedges', u⟩, hrest, hu⟩ := bind_eq_ok_iff.1 h
        cases hu
        exact .hedge hany (ih hrest)
  · intro h
    induction h with
    | term ht => simp only [readTarget, ht]
    | @hedge h ws hedges t hany hws ih =>
      have hname : Hedge.ofName? h.name = some h := Hedge.ofName?_eq_some_iff.2 rfl
      have hne : ws ≠ [] := by cases hws <;> simp
      rw [readTarget.eq_3 _ _ _ _ hne, hname]
      cases h with
      | any => exact absurd rfl hany
      | _ => simp only [ih, ok_bind, pure_eq_ok]

namespace Vocabulary

variable {v : Vocabulary}

theorem isClause_iff (consequent : String) {ws : List String} {p : Proposition} :
    v.IsClause ws p ↔ readClause v consequent ws = .ok p ∧ "and" ∉ ws := by
  constructor
  · rintro ⟨he, hws, hand⟩
    refine ⟨?_, hand⟩
    have htarget := (readTarget_eq_ok_iff consequent).2 hws
    cases hws with
    | term ht => simp only [readClause, he, htarget, ok_bind, pure_eq_ok]
    | hedge _ _ => simp only [readClause, he, htarget, ok_bind, pure_eq_ok]
  · rintro ⟨h, hand⟩
    unfold readClause at h
    split at h
    · split at h
      · cases h
      · rename_i he
        obtain ⟨⟨hedges, t⟩, htarget, hp⟩ := bind_eq_ok_iff.1 h
        cases hp
        exact ⟨he, (readTarget_eq_ok_iff consequent).1 htarget, hand⟩
    · cases h

/-- Words without `and` are one clause. -/
theorem clauses_of_not_mem {ws : List String} (h : "and" ∉ ws) : clauses ws = [ws] := by
  induction ws with
  | nil => rfl
  | cons w ws ih =>
    obtain ⟨hw, hws⟩ := List.ne_and_not_mem_of_not_mem_cons h
    rw [clauses, if_neg (Ne.symm hw), ih hws]

/-- The first `and` ends the first clause. -/
theorem clauses_append {ws : List String} (h : "and" ∉ ws) (us : List String) :
    clauses (ws ++ "and" :: us) = ws :: clauses us := by
  induction ws with
  | nil => rw [List.nil_append, clauses, if_pos rfl]
  | cons w ws ih =>
    obtain ⟨hw, hws⟩ := List.ne_and_not_mem_of_not_mem_cons h
    rw [List.cons_append, clauses, if_neg (Ne.symm hw), ih hws]

theorem IsConsequent.ne_nil {ws : List String} {ps : List Proposition} (h : v.IsConsequent ws ps) : ps ≠ [] := by
  cases h <;> simp

/-- The clauses of the words are read one by one. -/
theorem isConsequent_iff (consequent : String) {ws : List String} {ps : List Proposition} :
    v.IsConsequent ws ps ↔ (clauses ws).mapM (readClause v consequent) = .ok ps := by
  rw [mapM_eq_ok_iff]
  constructor
  · intro h
    induction h with
    | last hp =>
      obtain ⟨hread, hand⟩ := (isClause_iff consequent).1 hp
      rw [clauses_of_not_mem hand]
      exact .cons hread .nil
    | and hp _ ih =>
      obtain ⟨hread, hand⟩ := (isClause_iff consequent).1 hp
      rw [clauses_append hand]
      exact .cons hread ih
  · -- the words are shorter after every clause
    intro h
    induction hlength : ws.length using Nat.strongRecOn generalizing ws ps with
    | ind n ih =>
      by_cases hand : "and" ∈ ws
      · obtain ⟨as, us, rfl, has⟩ := List.eq_append_cons_of_mem hand
        rw [clauses_append has] at h
        cases h with
        | cons hread hrest =>
          have hshorter : us.length < n := by
            rw [← hlength]
            simp only [List.length_append, List.length_cons]
            omega
          exact .and ((isClause_iff consequent).2 ⟨hread, has⟩) (ih _ hshorter hrest rfl)
      · rw [clauses_of_not_mem hand] at h
        cases h with
        | cons hread hrest =>
          cases hrest
          exact .last ((isClause_iff consequent).2 ⟨hread, hand⟩)

end Vocabulary

theorem readConclusions_eq_ok_iff {v : Vocabulary} {consequent : String} {ps : List Proposition} :
    readConclusions v consequent = .ok ps ↔ v.IsConsequent (ruleWords consequent) ps := by
  rw [Vocabulary.isConsequent_iff consequent, readConclusions]
  split
  · rename_i hwords
    -- no clause is without words
    rw [hwords]
    constructor
    · intro h
      cases h
    · intro h
      cases h
  · rfl

/-! ## §4 Rules -/

namespace RuleText

/-- No number is written with this word. -/
theorem ne_with_of_read {w : String} {x : Float} (h : Scalar.read? w = some x) : w ≠ "with" := by
  rintro rfl
  have hnone : Scalar.read? "with" = none := by decide +kernel
  rw [hnone] at h
  cases h

theorem splitWeight_of_not_mem (rule : String) {ws : List String} (h : "with" ∉ ws) :
    splitWeight rule ws = .ok (ws, none) := by
  simp [splitWeight, h]

theorem splitWeight_append (rule : String) (cs : List String) {w : String} {x : Float}
    (h : Scalar.read? w = some x) : splitWeight rule (cs ++ ["with", w]) = .ok (cs, some x) := by
  simp [splitWeight, ne_with_of_read h, h]

/-- There is no weight, or the last two words give it. -/
theorem splitWeight_cases {rule : String} {ws cs : List String} {weight : Option Float}
    (h : splitWeight rule ws = .ok (cs, weight)) :
    ("with" ∉ ws ∧ cs = ws ∧ weight = none) ∨
      ∃ w x, ws = cs ++ ["with", w] ∧ Scalar.read? w = some x ∧ weight = some x := by
  unfold splitWeight at h
  split at h
  · split at h
    · rename_i w rest hreverse
      have hws : ws = rest.reverse ++ ["with", w] := by
        rw [← List.reverse_reverse ws, hreverse]
        simp
      split at h
      · cases h
      · split at h
        · rename_i x hx
          cases h
          exact .inr ⟨w, x, hws, hx, rfl⟩
        · cases h
    · cases h
  · rename_i hwith
    cases h
    exact .inl ⟨by simpa using hwith, rfl, rfl⟩

/-- The parts of a rule whose words are known. -/
theorem split_eq {rule : String} {as after : List String}
    (hwords : Text.words rule = "if" :: (as ++ "then" :: after)) (hthen : "then" ∉ as) :
    split rule = do
      let (cs, weight) ← splitWeight rule after
      return ⟨Text.unwords as, Text.unwords cs, weight⟩ := by
  have has : ∀ w ∈ as, (w != "then") = true := by
    intro w hw
    simpa using ne_of_mem_of_not_mem hw hthen
  simp only [split, hwords, List.takeWhile_append_of_pos has, List.dropWhile_append_of_pos has]
  simp

/-- A rule that is cut starts with `if` and has a `then`. -/
theorem exists_of_split {rule : String} {parts : RuleText} (h : split rule = .ok parts) :
    ∃ as after, Text.words rule = "if" :: (as ++ "then" :: after) ∧ "then" ∉ as := by
  unfold split at h
  split at h
  · rename_i ws hwords
    split at h
    · cases h
    · rename_i w after hdrop
      have hhead : w = "then" := by
        have hnot := List.head?_dropWhile_not (· != "then") ws
        simpa [hdrop] using hnot
      have hws : ws.takeWhile (· != "then") ++ ws.dropWhile (· != "then") = ws :=
        List.takeWhile_append_dropWhile
      refine ⟨ws.takeWhile (· != "then"), after, ?_, ?_⟩
      · rw [hdrop, hhead] at hws
        rw [hwords, hws]
      · intro hmem
        have hall := List.all_eq_true.1 List.all_takeWhile "then" hmem
        simp at hall
  · cases h

/-- The words of a text form a rule when the text is cut into parts that are read. -/
theorem isRule_iff {v : Vocabulary} {rule : String} {c : Condition} {ps : List Proposition}
    {weight : Option Float} :
    v.IsRule (Text.words rule) c ps weight ↔
      ∃ parts, split rule = .ok parts ∧ readCondition v parts.antecedent = .ok c ∧
        readConclusions v parts.consequent = .ok ps ∧ parts.weight = weight := by
  constructor
  · intro h
    generalize hwords : Text.words rule = ws at h
    cases h with
    | @unweighted as cs c ps hthen hwith hc hps =>
      refine ⟨⟨Text.unwords as, Text.unwords cs, none⟩, ?_, readCondition_eq_ok_iff.2 hc,
        readConclusions_eq_ok_iff.2 hps, rfl⟩
      rw [split_eq hwords hthen, splitWeight_of_not_mem rule hwith]
      rfl
    | @weighted as cs w x c ps hthen hw hc hps =>
      refine ⟨⟨Text.unwords as, Text.unwords cs, some x⟩, ?_, readCondition_eq_ok_iff.2 hc,
        readConclusions_eq_ok_iff.2 hps, rfl⟩
      rw [split_eq hwords hthen, splitWeight_append rule cs hw]
      rfl
  · rintro ⟨parts, hparts, hc, hps, rfl⟩
    obtain ⟨as, after, hwords, hthen⟩ := exists_of_split hparts
    rw [split_eq hwords hthen] at hparts
    obtain ⟨⟨cs, weight⟩, hweight, hparts⟩ := bind_eq_ok_iff.1 hparts
    cases hparts
    rw [hwords]
    rw [readCondition_eq_ok_iff] at hc
    rw [readConclusions_eq_ok_iff] at hps
    rcases splitWeight_cases hweight with ⟨hwith, rfl, rfl⟩ | ⟨w, x, rfl, hw, rfl⟩
    · exact .unweighted hthen hwith hc hps
    · exact .weighted hthen hw hc hps

end RuleText

namespace Rule

theorem load_eq {v : Vocabulary} {r : Rule Float} {parts : RuleText} {c : Condition} {ps : List Proposition}
    (hparts : RuleText.split r.text = .ok parts) (hc : readCondition v parts.antecedent = .ok c)
    (hps : readConclusions v parts.consequent = .ok ps) :
    r.load v = ({ r.unload.takeParts parts with antecedent := some c, conclusions := ps }, .ok ()) := by
  have hunload : r.unload.text = r.text := rfl
  simp only [load, hunload, hparts, hc, hps]

/-- A rule that was loaded was cut into parts that were read. -/
theorem exists_of_load {v : Vocabulary} {r : Rule Float} (h : (r.load v).2 = .ok ()) :
    ∃ parts c ps, RuleText.split r.text = .ok parts ∧ readCondition v parts.antecedent = .ok c ∧
      readConclusions v parts.consequent = .ok ps := by
  have hunload : r.unload.text = r.text := rfl
  unfold load at h
  dsimp only at h
  rw [hunload] at h
  split at h
  · cases h
  · rename_i parts hparts
    split at h
    · cases h
    · rename_i c hc
      split at h
      · cases h
      · rename_i ps hps
        exact ⟨parts, c, ps, hparts, hc, hps⟩

/-- A rule is parsed when its words form a rule. -/
theorem parse_of_isRule {v : Vocabulary} {text : String} {c : Condition} {ps : List Proposition}
    {weight : Option Float} (h : v.IsRule (Text.words text) c ps weight) :
    ∃ r : Rule Float, (parse v text).value = .ok r ∧ r.antecedent = some c ∧ r.conclusions = ps ∧
      r.weight = weight.getD 1.0 := by
  obtain ⟨parts, hparts, hc, hps, rfl⟩ := RuleText.isRule_iff.1 h
  have hload : (ofText text).load v = _ := load_eq hparts hc hps
  refine ⟨_, by rw [parse, loadReporting, hload]; rfl, rfl, rfl, rfl⟩

/-- A rule that is parsed was loaded. -/
theorem load_of_parse {v : Vocabulary} {text : String} {r : Rule Float} (h : (parse v text).value = .ok r) :
    ((ofText text).load v).2 = .ok () := by
  unfold parse loadReporting at h
  split at h
  · rename_i heq
    rw [heq]
  · cases h

/-- A rule is loaded when its words form a rule, with the antecedent and the conclusions of this rule, and with
its weight unless it has none. -/
theorem load_spec (v : Vocabulary) (r : Rule Float) :
    ((r.load v).2 = .ok () ↔ ∃ c ps weight, v.IsRule (Text.words r.text) c ps weight) ∧
    ∀ c ps weight, v.IsRule (Text.words r.text) c ps weight →
      (r.load v).1.antecedent = some c ∧ (r.load v).1.conclusions = ps ∧
        (r.load v).1.weight = weight.getD r.weight := by
  refine ⟨⟨fun h => ?_, ?_⟩, ?_⟩
  · obtain ⟨parts, c, ps, hparts, hc, hps⟩ := exists_of_load h
    exact ⟨c, ps, parts.weight, RuleText.isRule_iff.2 ⟨parts, hparts, hc, hps, rfl⟩⟩
  · rintro ⟨c, ps, weight, h⟩
    obtain ⟨parts, hparts, hc, hps, -⟩ := RuleText.isRule_iff.1 h
    rw [load_eq hparts hc hps]
  · intro c ps weight h
    obtain ⟨parts, hparts, hc, hps, rfl⟩ := RuleText.isRule_iff.1 h
    rw [load_eq hparts hc hps]
    exact ⟨rfl, rfl, rfl⟩

end Rule

end FuzzyInference
