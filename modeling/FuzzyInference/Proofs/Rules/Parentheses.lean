import FuzzyInference.Proofs.Rules.Printing

/-!
# Parentheses beside keywords

The text of a rule is cut twice. It is cut at its blanks for the keywords `if`, `then` and `with`, and then the
antecedent and the consequent are cut again, with parentheses set apart. So a parenthesis needs no blanks around
it, unless it stands beside one of these keywords: glued to a parenthesis, a keyword is overlooked by the first
cut.

This module compares a text with the one in which all parentheses are set apart. The two are loaded alike where no
keyword is glued to a parenthesis. Where one is, they are never both loaded: what is a keyword in one text is a
part of the antecedent in the other.

The plan of this module:

* words that a keyword is glued to, and rows of words without any;
* consequents, in which no two words that are neither a hedge nor of the language stand side by side;
* rules before and after their parentheses are set apart;
* loading.

## Main statements

* `exists_split_of_not_glued`: cutting at a keyword before and after setting parentheses apart
* `Vocabulary.IsConsequent.not_isGlued`: no consequent has a `with` that is glued to a parenthesis
* `Vocabulary.isRule_ruleWords_iff`: rules whose keywords stand apart
* `Rule.load_setApart`: loading
-/

namespace FuzzyInference

open Text

/-! ## §1 Glued keywords -/

/-- One of the words holds the keyword as a piece and more than it. -/
def IsGlued (k : String) (ws : List String) : Prop := ∃ w ∈ ws, w ≠ k ∧ k ∈ ruleWords w

instance (k : String) (ws : List String) : Decidable (IsGlued k ws) :=
  inferInstanceAs (Decidable (∃ w ∈ ws, w ≠ k ∧ k ∈ ruleWords w))

section Glued

variable {k : String} {ws : List String}

theorem not_isGlued_cons {w : String} (h : ¬IsGlued k (w :: ws)) : (w ≠ k → k ∉ ruleWords w) ∧ ¬IsGlued k ws :=
  ⟨fun hne hmem => h ⟨w, List.mem_cons_self, hne, hmem⟩,
    fun ⟨u, hu, hglued⟩ => h ⟨u, List.mem_cons_of_mem _ hu, hglued⟩⟩

/-- Pieces bring no keyword in that is neither among the words nor glued to one. -/
theorem not_mem_flatMap_ruleWords (h : ¬IsGlued k ws) (hk : k ∉ ws) : k ∉ ws.flatMap ruleWords := by
  intro hmem
  obtain ⟨w, hw, hpiece⟩ := List.mem_flatMap.1 hmem
  exact h ⟨w, hw, fun heq => hk (heq ▸ hw), hpiece⟩

/-- A row that starts with words other than the keyword is cut at the keyword behind them. -/
theorem exists_append_of_not_mem {xs zs us vs : List String} (h : xs ++ zs = us ++ k :: vs) (hk : k ∉ xs) :
    ∃ us', us = xs ++ us' ∧ zs = us' ++ k :: vs := by
  rcases List.append_eq_append_iff.1 h with hlonger | ⟨vs', rfl, hvs⟩
  · exact hlonger
  · cases vs' with
    | nil => exact ⟨[], by simp, hvs.symm⟩
    | cons u vs' =>
      obtain ⟨rfl, -⟩ := List.cons_eq_cons.1 hvs
      exact absurd (List.mem_append_right _ List.mem_cons_self) hk

/-- A row is cut at the first keyword in one way. -/
theorem eq_of_append_cons {us us' vs vs' : List String} (h : us ++ k :: vs = us' ++ k :: vs') (hus : k ∉ us)
    (hus' : k ∉ us') : us = us' ∧ vs = vs' := by
  obtain ⟨ts, rfl, hts⟩ := exists_append_of_not_mem h hus
  cases ts with
  | nil => simpa using hts
  | cons t ts =>
    obtain ⟨rfl, -⟩ := List.cons_eq_cons.1 hts
    exact absurd (List.mem_append_right _ List.mem_cons_self) hus'

/-- Where no keyword is glued, the pieces are cut at a keyword where the words are. -/
theorem exists_split_of_not_glued (hk : ruleWords k = [k]) (h : ¬IsGlued k ws) {us vs : List String}
    (hsplit : ws.flatMap ruleWords = us ++ k :: vs) :
    ∃ as bs, ws = as ++ k :: bs ∧ as.flatMap ruleWords = us ∧ bs.flatMap ruleWords = vs := by
  induction ws generalizing us with
  | nil => simp at hsplit
  | cons w ws ih =>
    obtain ⟨hw, hrest⟩ := not_isGlued_cons h
    rw [List.flatMap_cons] at hsplit
    by_cases heq : w = k
    · subst heq
      rw [hk, List.singleton_append] at hsplit
      cases us with
      | nil =>
        cases hsplit
        exact ⟨[], ws, rfl, rfl, rfl⟩
      | cons u us =>
        obtain ⟨rfl, hbehind⟩ := List.cons_eq_cons.1 hsplit
        obtain ⟨as, bs, rfl, has, hbs⟩ := ih hrest hbehind
        exact ⟨w :: as, bs, rfl, by rw [List.flatMap_cons, hk, has, List.singleton_append], hbs⟩
    · -- the pieces of a word without the keyword all stand before it
      obtain ⟨us', rfl, hbehind⟩ := exists_append_of_not_mem hsplit (hw heq)
      obtain ⟨as, bs, rfl, has, hbs⟩ := ih hrest hbehind
      exact ⟨w :: as, bs, rfl, by rw [List.flatMap_cons, has], hbs⟩

end Glued

/-- No parenthesis is glued to a keyword that a rule is cut at: to the first word, to a `then` up to the first one
that stands alone, or to a `with` behind it. -/
structure KeywordsApart (text : String) : Prop where
  start : (ruleWords text).head? = some "if" → (words text).head? = some "if"
  middle : ¬IsGlued "then" ((words text).takeWhile (· != "then"))
  ending : ¬IsGlued "with" ((words text).dropWhile (· != "then"))

instance (text : String) : Decidable (KeywordsApart text) :=
  decidable_of_iff
    (((ruleWords text).head? = some "if" → (words text).head? = some "if") ∧
      ¬IsGlued "then" ((words text).takeWhile (· != "then")) ∧
      ¬IsGlued "with" ((words text).dropWhile (· != "then")))
    ⟨fun ⟨hstart, hmiddle, hending⟩ => ⟨hstart, hmiddle, hending⟩,
      fun h => ⟨h.start, h.middle, h.ending⟩⟩

/-! ## §2 Consequents -/

/-- The words that stand between names in a consequent: those of the language, and hedges. -/
def IsLink (w : String) : Prop := w = "is" ∨ w = "and" ∨ ∃ h : Hedge, w = h.name

theorem not_isLink {w : String} (h : w ∈ ["with", "(", ")"]) : ¬IsLink w := by
  have hall : ∀ w ∈ ["with", "(", ")"], w ≠ "is" ∧ w ≠ "and" ∧ Hedge.ofName? w = none := by decide
  obtain ⟨his, hand, hhedge⟩ := hall w h
  rintro (rfl | rfl | ⟨hedge, rfl⟩)
  · exact his rfl
  · exact hand rfl
  · rw [Hedge.ofName?_eq_some_iff.2 rfl] at hhedge
    cases hhedge

theorem VocabularyEntry.Concludes.isChain {e : VocabularyEntry} {ws : List String} {hedges : List Hedge}
    {t : TermRef} (h : e.Concludes ws hedges t) : ws.IsChain fun a b => IsLink a ∨ IsLink b := by
  induction h with
  | term _ => exact .singleton _
  | hedge _ _ ih => exact List.isChain_cons.2 ⟨fun _ _ => .inl (.inr (.inr ⟨_, rfl⟩)), ih⟩

namespace Vocabulary

variable {v : Vocabulary} {ws : List String} {ps : List Proposition}

theorem IsClause.isChain {p : Proposition} (h : v.IsClause ws p) : ws.IsChain fun a b => IsLink a ∨ IsLink b := by
  obtain ⟨-, htarget, -⟩ := h
  have his : IsLink "is" := .inl rfl
  exact List.isChain_cons_cons.2 ⟨.inr his, List.isChain_cons.2 ⟨fun _ _ => .inl his, htarget.isChain⟩⟩

/-- Of two words that stand side by side in a consequent, one is a link. -/
theorem IsConsequent.isChain (h : v.IsConsequent ws ps) : ws.IsChain fun a b => IsLink a ∨ IsLink b := by
  have hand : IsLink "and" := .inr (.inl rfl)
  induction h with
  | last hp => exact hp.isChain
  | and hp _ ih =>
    refine List.isChain_append.2 ⟨hp.isChain, List.isChain_cons.2 ⟨fun _ _ => .inl hand, ih⟩, ?_⟩
    intro a _ b hb
    cases hb
    exact .inr hand

/-- A `with` that is glued to a parenthesis would stand beside it, and neither is a link. -/
theorem IsConsequent.not_isGlued (hwords : ∀ w ∈ ws, IsWord w) (h : v.IsConsequent (ws.flatMap ruleWords) ps) :
    ¬IsGlued "with" ws := by
  rintro ⟨w, hw, hne, hwith⟩
  obtain ⟨before, after, rfl⟩ := List.append_of_mem hw
  have hpieces : (ruleWords w).IsChain fun a b => IsLink a ∨ IsLink b := by
    refine h.isChain.infix ⟨before.flatMap ruleWords, after.flatMap ruleWords, ?_⟩
    rw [List.flatMap_append, List.flatMap_cons, List.append_assoc]
  have hparentheses := isChain_ruleWords (hwords w hw)
  have hnot : ∀ u, u ∈ ["(", ")"] → ¬IsLink u := fun u hu => not_isLink (List.mem_cons_of_mem _ hu)
  have hnotWith : ¬IsLink "with" := not_isLink (by decide)
  obtain ⟨xs, ys, hsplit⟩ := List.append_of_mem hwith
  rw [hsplit] at hpieces hparentheses
  -- the piece before it and the piece after it are parentheses, and one of the two exists
  cases ys with
  | cons y ys =>
    have hlink := (List.isChain_cons_cons.1 (List.isChain_append.1 hpieces).2.1).1
    have hparenthesis := (List.isChain_cons_cons.1 (List.isChain_append.1 hparentheses).2.1).1
    exact hnot y (hparenthesis.resolve_left (by decide)) (hlink.resolve_left hnotWith)
  | nil =>
    rcases List.eq_nil_or_concat xs with rfl | ⟨xs, x, rfl⟩
    · exact hne (eq_of_ruleWords_eq (hwords w hw) hsplit)
    · have hlink := (List.isChain_append.1 hpieces).2.2 x (by simp) "with" rfl
      have hparenthesis := (List.isChain_append.1 hparentheses).2.2 x (by simp) "with" rfl
      exact hnot x (hparenthesis.resolve_right (by decide)) (hlink.resolve_right hnotWith)

end Vocabulary

/-! ## §3 Rules -/

/-- A number is one piece. -/
theorem ruleWords_of_read {w : String} {x : Float} (h : Scalar.read? w = some x) (hw : IsWord w) :
    ruleWords w = [w] := by
  have hnot : ∀ c, c = '(' ∨ c = ')' → c ∉ w.toList := by
    intro c hc hmem
    have hnone : Scalar.read? w = none := Decimal.readFloat?_eq_none (Decimal.isForeign_parenthesis hc) hmem
    rw [h] at hnone
    cases hnone
  exact ruleWords_of_isWord hw (hnot '(' (.inl rfl)) (hnot ')' (.inr rfl))

/-- Pieces are not cut any further. -/
theorem flatMap_flatMap_ruleWords (ws : List String) :
    (ws.flatMap ruleWords).flatMap ruleWords = ws.flatMap ruleWords := by
  apply flatMap_ruleWords
  intro u hu
  obtain ⟨w, -, hpiece⟩ := List.mem_flatMap.1 hu
  exact ruleWords_of_mem hpiece

/-- Words of one piece altogether are this piece. -/
theorem eq_singleton_of_flatMap {ws : List String} {u : String} (hwords : ∀ w ∈ ws, IsWord w)
    (h : ws.flatMap ruleWords = [u]) : ws = [u] := by
  cases ws with
  | nil => cases h
  | cons w ws =>
    have hw : IsWord w := hwords w List.mem_cons_self
    rw [List.flatMap_cons, List.append_eq_singleton_iff] at h
    rcases h with ⟨hnil, -⟩ | ⟨hpiece, hnil⟩
    · exact absurd hnil (ruleWords_ne_nil hw)
    · cases ws with
      | nil => rw [eq_of_ruleWords_eq hw hpiece]
      | cons w' ws =>
        rw [List.flatMap_cons, List.append_eq_nil_iff] at hnil
        exact absurd hnil.1 (ruleWords_ne_nil (hwords w' (by simp)))

/-- What follows `then` are the words of a consequent, and the weight if there is one. -/
def IsEnding (after cs : List String) : Option Float → Prop
  | none => after = cs ∧ "with" ∉ cs
  | some x => ∃ w, after = cs ++ ["with", w] ∧ Scalar.read? w = some x

namespace IsEnding

variable {after cs us : List String} {weight : Option Float}

theorem pieces (hwords : ∀ w ∈ after, IsWord w) (hglued : ¬IsGlued "with" after) (h : IsEnding after cs weight) :
    IsEnding (after.flatMap ruleWords) (cs.flatMap ruleWords) weight := by
  cases weight with
  | none =>
    obtain ⟨rfl, hwith⟩ := h
    exact ⟨rfl, not_mem_flatMap_ruleWords hglued hwith⟩
  | some x =>
    obtain ⟨w, rfl, hw⟩ := h
    have hwith : ruleWords "with" = ["with"] := ruleWords_keyword (by decide)
    refine ⟨w, ?_, hw⟩
    rw [List.flatMap_append, List.flatMap_cons, hwith, List.flatMap_singleton,
      ruleWords_of_read hw (hwords w (by simp)), List.singleton_append]

theorem exists_of_pieces (hwords : ∀ w ∈ after, IsWord w) (hglued : ¬IsGlued "with" after)
    (h : IsEnding (after.flatMap ruleWords) us weight) :
    ∃ cs, IsEnding after cs weight ∧ cs.flatMap ruleWords = us := by
  have hkeyword : ruleWords "with" = ["with"] := ruleWords_keyword (by decide)
  cases weight with
  | none =>
    obtain ⟨rfl, hwith⟩ := h
    refine ⟨after, ⟨rfl, fun hmem => hwith ?_⟩, rfl⟩
    exact List.mem_flatMap.2 ⟨"with", hmem, by simp [hkeyword]⟩
  | some x =>
    obtain ⟨w, hpieces, hw⟩ := h
    obtain ⟨cs, bs, rfl, hcs, hbs⟩ := exists_split_of_not_glued hkeyword hglued hpieces
    have hlast : bs = [w] := eq_singleton_of_flatMap (fun b hb => hwords b (by simp [hb])) hbs
    exact ⟨cs, ⟨w, by rw [hlast], hw⟩, hcs⟩

/-- Behind the `then` of a rule no `with` is glued. -/
theorem not_isGlued {v : Vocabulary} {ps : List Proposition} (hwords : ∀ w ∈ after, IsWord w)
    (h : IsEnding after cs weight) (hps : v.IsConsequent (cs.flatMap ruleWords) ps) : ¬IsGlued "with" after := by
  cases weight with
  | none =>
    obtain ⟨rfl, -⟩ := h
    exact hps.not_isGlued hwords
  | some x =>
    obtain ⟨w, rfl, hw⟩ := h
    rintro ⟨u, hu, hne, hwith⟩
    rcases List.mem_append.1 hu with hu | hu
    · exact hps.not_isGlued (fun w hw => hwords w (List.mem_append_left _ hw)) ⟨u, hu, hne, hwith⟩
    · obtain rfl : u = w := by simpa [hne] using hu
      rw [ruleWords_of_read hw (hwords u (by simp)), List.mem_singleton] at hwith
      exact hne hwith.symm

end IsEnding

section Cut

variable {text : String} {as after : List String}

theorem isGlued_cons_keyword {k w : String} {ws : List String} (hw : w ∈ ruleKeywords) :
    IsGlued k (w :: ws) ↔ IsGlued k ws := by
  constructor
  · rintro ⟨u, hu, hne, hmem⟩
    rcases List.mem_cons.1 hu with rfl | hu
    · rw [ruleWords_keyword hw, List.mem_singleton] at hmem
      exact absurd hmem.symm hne
    · exact ⟨u, hu, hne, hmem⟩
  · rintro ⟨u, hu, hglued⟩
    exact ⟨u, List.mem_cons_of_mem _ hu, hglued⟩

theorem keywordsApart_iff (hwords : words text = "if" :: (as ++ "then" :: after)) (hthen : "then" ∉ as) :
    KeywordsApart text ↔ ¬IsGlued "then" as ∧ ¬IsGlued "with" after := by
  have has : ∀ w ∈ "if" :: as, (w != "then") = true := by
    intro w hw
    rcases List.mem_cons.1 hw with rfl | hw
    · decide
    · simpa using ne_of_mem_of_not_mem hw hthen
  have htake : (words text).takeWhile (· != "then") = "if" :: as := by
    rw [hwords, ← List.cons_append, List.takeWhile_append_of_pos has]
    simp
  have hdrop : (words text).dropWhile (· != "then") = "then" :: after := by
    rw [hwords, ← List.cons_append, List.dropWhile_append_of_pos has]
    simp
  have hmiddle : IsGlued "then" ("if" :: as) ↔ IsGlued "then" as := isGlued_cons_keyword (by decide)
  have hending : IsGlued "with" ("then" :: after) ↔ IsGlued "with" after := isGlued_cons_keyword (by decide)
  rw [← hmiddle, ← hending, ← htake, ← hdrop]
  exact ⟨fun h => ⟨h.middle, h.ending⟩, fun ⟨hthen, hwith⟩ => ⟨fun _ => by rw [hwords]; rfl, hthen, hwith⟩⟩

/-- The pieces of a text whose words are known. -/
theorem ruleWords_of_words (hwords : words text = "if" :: (as ++ "then" :: after)) :
    ruleWords text = "if" :: (as.flatMap ruleWords ++ "then" :: after.flatMap ruleWords) := by
  have hif : ruleWords "if" = ["if"] := ruleWords_keyword (by decide)
  have hthen : ruleWords "then" = ["then"] := ruleWords_keyword (by decide)
  rw [ruleWords_eq_flatMap, hwords, List.flatMap_cons, List.flatMap_append, List.flatMap_cons, hif, hthen]
  rfl

/-- Where keywords stand apart, the words are cut where the pieces are. -/
theorem KeywordsApart.exists_words (h : KeywordsApart text) {us vs : List String}
    (hpieces : ruleWords text = "if" :: (us ++ "then" :: vs)) (hthen : "then" ∉ us) :
    ∃ as after, words text = "if" :: (as ++ "then" :: after) ∧ "then" ∉ as ∧ as.flatMap ruleWords = us ∧
      after.flatMap ruleWords = vs := by
  have hstart : (words text).head? = some "if" := h.start (by rw [hpieces]; rfl)
  obtain ⟨ws, hws⟩ := List.head?_eq_some_iff.1 hstart
  have hsplit : ws.flatMap ruleWords = us ++ "then" :: vs := by
    rw [ruleWords_eq_flatMap, hws, List.flatMap_cons, ruleWords_keyword (by decide)] at hpieces
    exact (List.cons_eq_cons.1 hpieces).2
  by_cases hmem : "then" ∈ ws
  · obtain ⟨as, after, rfl, has⟩ := List.eq_append_cons_of_mem hmem
    obtain ⟨hglued, -⟩ := (keywordsApart_iff hws has).1 h
    rw [List.flatMap_append, List.flatMap_cons, ruleWords_keyword (by decide)] at hsplit
    obtain ⟨rfl, rfl⟩ := eq_of_append_cons hsplit (not_mem_flatMap_ruleWords hglued has) hthen
    exact ⟨as, after, hws, has, rfl, rfl⟩
  · -- a `then` that only pieces have would be glued
    have hall : (words text).takeWhile (· != "then") = words text := by
      rw [List.takeWhile_eq_self_iff, hws]
      intro w hw
      rcases List.mem_cons.1 hw with rfl | hw
      · decide
      · simpa using ne_of_mem_of_not_mem hw hmem
    have hmiddle := h.middle
    rw [hall, hws] at hmiddle
    have hnot := not_mem_flatMap_ruleWords (not_isGlued_cons hmiddle).2 hmem
    rw [hsplit] at hnot
    exact absurd (List.mem_append_right _ List.mem_cons_self) hnot

end Cut

namespace Vocabulary

variable {v : Vocabulary} {c c' : Condition} {ps ps' : List Proposition} {weight weight' : Option Float}

/-- A rule is cut before its antecedent, at the first `then` and at its weight. -/
theorem isRule_iff_cut {ws : List String} :
    v.IsRule ws c ps weight ↔ ∃ as after cs, ws = "if" :: (as ++ "then" :: after) ∧ "then" ∉ as ∧
      IsEnding after cs weight ∧ ConditionReader.Derives v (.chain .or) (as.flatMap ruleWords) c ∧
      v.IsConsequent (cs.flatMap ruleWords) ps := by
  constructor
  · intro h
    cases h with
    | unweighted hthen hwith hc hps =>
      rw [ruleWords_unwords] at hc hps
      exact ⟨_, _, _, rfl, hthen, ⟨rfl, hwith⟩, hc, hps⟩
    | weighted hthen hw hc hps =>
      rw [ruleWords_unwords] at hc hps
      exact ⟨_, _, _, rfl, hthen, ⟨_, rfl, hw⟩, hc, hps⟩
  · rintro ⟨as, after, cs, rfl, hthen, hending, hc, hps⟩
    rw [← ruleWords_unwords] at hc hps
    cases weight with
    | none =>
      obtain ⟨rfl, hwith⟩ := hending
      exact .unweighted hthen hwith hc hps
    | some x =>
      obtain ⟨w, rfl, hw⟩ := hending
      exact .weighted hthen hw hc hps

/-- Where no keyword is glued to a parenthesis, the pieces form the same rules as the words. -/
theorem isRule_ruleWords_iff {text : String} (h : KeywordsApart text) :
    v.IsRule (ruleWords text) c ps weight ↔ v.IsRule (words text) c ps weight := by
  have hword : ∀ w ∈ words text, IsWord w := fun w hw => isWord_of_mem_words hw
  rw [isRule_iff_cut, isRule_iff_cut]
  constructor
  · rintro ⟨us, vs, ts, hpieces, hthen, hending, hc, hps⟩
    obtain ⟨as, after, hwords, has, rfl, rfl⟩ := h.exists_words hpieces hthen
    obtain ⟨-, hwith⟩ := (keywordsApart_iff hwords has).1 h
    obtain ⟨cs, hends, rfl⟩ := hending.exists_of_pieces (fun w hw => hword w (by simp [hwords, hw])) hwith
    rw [flatMap_flatMap_ruleWords] at hc hps
    exact ⟨as, after, cs, hwords, has, hends, hc, hps⟩
  · rintro ⟨as, after, cs, hwords, hthen, hending, hc, hps⟩
    obtain ⟨hglued, hwith⟩ := (keywordsApart_iff hwords hthen).1 h
    have hends := hending.pieces (fun w hw => hword w (by simp [hwords, hw])) hwith
    rw [← flatMap_flatMap_ruleWords] at hc hps
    exact ⟨_, _, _, ruleWords_of_words hwords, not_mem_flatMap_ruleWords hglued hthen, hends, hc, hps⟩

/-- Where a keyword is glued to a parenthesis, the pieces of a rule form no rule. -/
theorem not_isRule_ruleWords {text : String} (h : ¬KeywordsApart text) (hrule : v.IsRule (words text) c ps weight) :
    ¬v.IsRule (ruleWords text) c' ps' weight' := by
  intro hrule'
  obtain ⟨as, after, cs, hwords, hthen, hending, hc, hps⟩ := isRule_iff_cut.1 hrule
  obtain ⟨us, vs, -, hpieces, hthen', -, hc', -⟩ := isRule_iff_cut.1 hrule'
  have hwith : ¬IsGlued "with" after :=
    hending.not_isGlued (fun w hw => isWord_of_mem_words (by rw [hwords]; simp [hw])) hps
  -- so it is a `then` that is glued, and a piece of the antecedent
  obtain ⟨w, hw, -, hpiece⟩ : IsGlued "then" as := by
    by_contra hglued
    exact h ((keywordsApart_iff hwords hthen).2 ⟨hglued, hwith⟩)
  obtain ⟨us', ts, hcut, hus'⟩ := List.eq_append_cons_of_mem (List.mem_flatMap.2 ⟨w, hw, hpiece⟩)
  rw [ruleWords_of_words hwords, hcut, List.append_assoc, List.cons_append] at hpieces
  obtain ⟨rfl, -⟩ := eq_of_append_cons (List.cons_eq_cons.1 hpieces).2 hus' hthen'
  -- the pieces before it are an antecedent, and the words of a longer one start with them
  rw [← flatMap_flatMap_ruleWords, hcut, List.flatMap_append, List.flatMap_cons, ruleWords_keyword (by decide)] at hc
  exact absurd (hc'.eq_word_of_append hc) (by decide)

end Vocabulary

/-! ## §4 Loading -/

/-- The text with a space before and after every parenthesis. -/
def RuleText.setApart (text : String) : String := String.ofList (padParentheses text.toList)

/-- The words of such a text are the pieces of the text. -/
theorem RuleText.words_setApart (text : String) : words (setApart text) = ruleWords text := by
  rw [words, setApart, String.toList_ofList]
  rfl

namespace Rule

variable {v : Vocabulary} {r : Rule Float}

/-- The rule with a space before and after every parenthesis of its text. -/
def setApart (r : Rule Float) : Rule Float := { r with text := RuleText.setApart r.text }

theorem exists_isRule_of_load (h : (r.load v).2 = .ok ()) :
    ∃ c ps weight, v.IsRule (words r.text) c ps weight := by
  obtain ⟨parts, c, ps, hparts, hc, hps⟩ := exists_of_load h
  exact ⟨c, ps, parts.weight, RuleText.isRule_iff.2 ⟨parts, hparts, hc, hps, rfl⟩⟩

theorem load_of_isRule {c : Condition} {ps : List Proposition} {weight : Option Float}
    (h : v.IsRule (words r.text) c ps weight) :
    (r.load v).2 = .ok () ∧ (r.load v).1.antecedent = some c ∧ (r.load v).1.conclusions = ps ∧
      (r.load v).1.weight = weight.getD r.weight := by
  obtain ⟨parts, hparts, hc, hps, rfl⟩ := RuleText.isRule_iff.1 h
  rw [load_eq hparts hc hps]
  exact ⟨rfl, rfl, rfl, rfl⟩

/-- Both rules are loaded, with the same antecedent, the same conclusions and the same weight, or neither is. -/
def LoadAlike (v : Vocabulary) (r s : Rule Float) : Prop :=
  ((r.load v).2 = .ok () ↔ (s.load v).2 = .ok ()) ∧
    ((r.load v).2 = .ok () → (r.load v).1.antecedent = (s.load v).1.antecedent ∧
      (r.load v).1.conclusions = (s.load v).1.conclusions ∧ (r.load v).1.weight = (s.load v).1.weight)

/-- Rules of the same weight are loaded alike if their words form the same rules. -/
theorem loadAlike_of_isRule_iff {s : Rule Float} (hweight : r.weight = s.weight)
    (h : ∀ c ps weight, v.IsRule (words r.text) c ps weight ↔ v.IsRule (words s.text) c ps weight) :
    LoadAlike v r s := by
  refine ⟨⟨fun hload => ?_, fun hload => ?_⟩, fun hload => ?_⟩
  · obtain ⟨c, ps, weight, hrule⟩ := exists_isRule_of_load hload
    exact (load_of_isRule ((h c ps weight).1 hrule)).1
  · obtain ⟨c, ps, weight, hrule⟩ := exists_isRule_of_load hload
    exact (load_of_isRule ((h c ps weight).2 hrule)).1
  · obtain ⟨c, ps, weight, hrule⟩ := exists_isRule_of_load hload
    obtain ⟨-, hc, hps, hw⟩ := load_of_isRule hrule
    obtain ⟨-, hc', hps', hw'⟩ := load_of_isRule ((h c ps weight).1 hrule)
    exact ⟨hc.trans hc'.symm, hps.trans hps'.symm, by rw [hw, hw', hweight]⟩

/-- Where no parenthesis of the text of a rule is glued to a keyword, setting parentheses apart makes no difference
to loading. Where one is, the rule and the one whose parentheses are set apart are never both loaded. -/
theorem load_setApart (v : Vocabulary) (r : Rule Float) :
    (KeywordsApart r.text → LoadAlike v r r.setApart) ∧
      (¬KeywordsApart r.text → (r.load v).2 = .ok () → (r.setApart.load v).2 ≠ .ok ()) := by
  have hwords : words r.setApart.text = ruleWords r.text := RuleText.words_setApart r.text
  constructor
  · intro hapart
    have hweight : r.weight = r.setApart.weight := rfl
    refine loadAlike_of_isRule_iff hweight fun c ps weight => ?_
    rw [hwords]
    exact (Vocabulary.isRule_ruleWords_iff hapart).symm
  · intro hglued h h'
    obtain ⟨c, ps, weight, hrule⟩ := exists_isRule_of_load h
    obtain ⟨c', ps', weight', hrule'⟩ := exists_isRule_of_load h'
    rw [hwords] at hrule'
    exact Vocabulary.not_isRule_ruleWords hglued hrule hrule'

/-- Parentheses beside other words make no difference. Beside a term called `then` a parenthesis is needed, and
beside the keyword it is in the way. -/
theorem load_setApart_ambient :
    let r := ofText "if not(Ambient is DARK) then Power is HIGH with .5"
    let s := ofText "if (Ambient is then) then Power is HIGH"
    let t := ofText "if (Ambient is DARK)then Power is HIGH"
    ((r.load ambientVocabulary).2 = .ok () ∧ LoadAlike ambientVocabulary r r.setApart) ∧
      ((s.load ambientVocabulary).2 = .ok () ∧ (s.setApart.load ambientVocabulary).2 ≠ .ok ()) ∧
      (t.load ambientVocabulary).2.isOk = false ∧ (t.setApart.load ambientVocabulary).2.isOk = true := by
  intro r s t
  have hr : (r.load ambientVocabulary).2.isOk = true := by decide +kernel
  have hs : (s.load ambientVocabulary).2.isOk = true := by decide +kernel
  have hapart : KeywordsApart r.text := by decide +kernel
  have hglued : ¬KeywordsApart s.text := by decide +kernel
  exact ⟨⟨eq_ok_of_isOk hr, (load_setApart ambientVocabulary r).1 hapart⟩,
    ⟨eq_ok_of_isOk hs, (load_setApart ambientVocabulary s).2 hglued (eq_ok_of_isOk hs)⟩,
    by decide +kernel, by decide +kernel⟩

end Rule

end FuzzyInference
