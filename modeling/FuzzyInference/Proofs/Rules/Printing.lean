import FuzzyInference.Proofs.Decimal.Written
import FuzzyInference.Proofs.Rules.Language
import FuzzyInference.Proofs.Zeros

/-!
# The text of a loaded rule

A loaded rule is shown as it was read: every connective with parentheses around it, and the weight with a
fixed number of decimals. The text is a rule again, and says the same, if its weight survives the decimals. Two
names need care. A conclusion must not mention `with`, which would start a weight. And an antecedent may mention
`then` only next to a parenthesis: a parenthesis keeps a name apart from the keyword, but those that the text of
the rule had need not be shown.

The plan of this module:

* weights that look the same;
* the words of conditions and of conclusions;
* the words of rules.

## Main statements

* `ConditionReader.Derives.text`: the text of a condition that was read derives the condition
* `Vocabulary.IsConsequent.text`: the text of conclusions that were read gives these conclusions
* `Rule.parse_shown`: when the text of a loaded rule is read, and as what
-/

namespace FuzzyInference

open Scalar Checked

/-! ## §1 Weights -/

/-- What a rule shows of its weight, unless it is one. -/
def weightShown (weight : Float) : Option String :=
  if near weight 1.0 then none else some (Scalar.text defaultDecimals weight)

/-- Weights that are alike look the same. -/
theorem weightShown_eq {x y : Float} (h : Float.Alike x y) : weightShown x = weightShown y := by
  have hzeros : weightShown 0.0 = weightShown (-0.0) := by decide +kernel
  rcases h.eq_or_zeros with rfl | ⟨rfl | rfl, rfl | rfl⟩
  · rfl
  · rfl
  · exact hzeros
  · exact hzeros.symm
  · rfl

/-- The weight can be read of the text of a rule: it is one and not shown, or is shown and read back. -/
def SurvivesText (weight : Float) : Prop :=
  weight = 1.0 ∨ near weight 1.0 = false ∧
    ∃ x, Scalar.read? (Scalar.text defaultDecimals weight) = some x ∧ Float.Alike x weight

/-! ## §2 Words of conditions and conclusions -/

theorem flatMap_ruleWords {ws : List String} (h : ∀ w ∈ ws, ruleWords w = [w]) : ws.flatMap ruleWords = ws := by
  induction ws with
  | nil => rfl
  | cons w ws ih =>
    rw [List.flatMap_cons, h w List.mem_cons_self, ih fun u hu => h u (List.mem_cons_of_mem _ hu)]
    rfl

namespace Proposition

/-- The proposition is about a variable or a term of this name. -/
def Names (p : Proposition) (name : String) : Prop := p.subject.name = name ∨ ∃ t ∈ p.term, t.name = name

instance (p : Proposition) (name : String) : Decidable (p.Names name) :=
  inferInstanceAs (Decidable (p.subject.name = name ∨ ∃ t ∈ p.term, t.name = name))

theorem names_of_mem_words {p : Proposition} {w : String} (h : w ∈ p.words) (his : w ≠ "is")
    (hhedge : Hedge.ofName? w = none) : p.Names w := by
  simp only [words, List.cons_append, List.nil_append, List.mem_cons, List.mem_append, List.mem_map,
    Option.mem_toList, Option.map_eq_some_iff] at h
  rcases h with rfl | rfl | ⟨hedge, -, rfl⟩ | ⟨t, ht, rfl⟩
  · exact .inl rfl
  · exact absurd rfl his
  · rw [Hedge.ofName?_eq_some_iff.2 rfl] at hhedge
    cases hhedge
  · exact .inr ⟨t, ht, rfl⟩

theorem ruleWords_text {p : Proposition} (h : ∀ w ∈ p.words, ruleWords w = [w]) :
    ruleWords p.text = p.words := by
  rw [text, ruleWords_unwords, flatMap_ruleWords h]

end Proposition

/-- The words of a connective are the words that it is read from. -/
theorem Connective.ruleWords_word (k : Connective) : ruleWords k.word = [k.word] :=
  ruleWords_keyword (by cases k <;> decide)

theorem VocabularyEntry.name_of_term? {e : VocabularyEntry} {w : String} {t : TermRef} (h : e.term? w = some t) :
    t.name = w := by
  simpa using List.find?_some h

namespace Condition

/-- The words of the text of a condition. -/
def words : Condition → List String
  | proposition p => p.words
  | join k left right => "(" :: (left.words ++ k.word :: (right.words ++ [")"]))
  | negation operand => "not" :: operand.words

theorem ruleWords_join {k : Connective} {a b : Condition} (ha : ruleWords a.text = a.words)
    (hb : ruleWords b.text = b.words) : ruleWords (join k a b).text = (join k a b).words := by
  rw [text, ruleWords_closing, ruleWords_append_space, ruleWords_append_space, ruleWords_opening, ha, hb,
    k.ruleWords_word]
  simp [words]

theorem ruleWords_negation {a : Condition} (ha : ruleWords a.text = a.words) :
    ruleWords (negation a).text = (negation a).words := by
  have hspace : "not " ++ a.text = "not" ++ " " ++ a.text := rfl
  rw [text, hspace, ruleWords_append_space, ruleWords_keyword (by decide), ha]
  rfl

/-- The words of a condition are those of its propositions and some of the language. -/
theorem mem_words {c : Condition} {w : String} (h : w ∈ c.words)
    (hw : w ∉ ["(", ")", "and", "or", "not"]) : ∃ p ∈ c.propositions, w ∈ p.words := by
  simp only [List.mem_cons, List.not_mem_nil, or_false, not_or] at hw
  obtain ⟨hopening, hclosing, hand, hor, hnot⟩ := hw
  induction c with
  | proposition p => exact ⟨p, List.mem_singleton_self p, h⟩
  | join k left right ihl ihr =>
    have hword : w ≠ k.word := by
      cases k with
      | and => exact hand
      | or => exact hor
    simp only [words, List.mem_cons, List.mem_append, List.not_mem_nil, hopening, hclosing, hword, false_or,
      or_false] at h
    rcases h with h | h
    · obtain ⟨p, hp, hmem⟩ := ihl h
      exact ⟨p, List.mem_append_left _ hp, hmem⟩
    · obtain ⟨p, hp, hmem⟩ := ihr h
      exact ⟨p, List.mem_append_right _ hp, hmem⟩
  | negation operand ih =>
    simp only [words, List.mem_cons, hnot, false_or] at h
    exact ih h

end Condition

namespace ConditionReader

variable {v : Vocabulary}

theorem Targets.words_eq {e : VocabularyEntry} {ws : List String} {hedges : List Hedge} {t : Option TermRef}
    (h : Targets e ws hedges t) : ws = hedges.map Hedge.name ++ (t.map TermRef.name).toList := by
  induction h with
  | term ht => simp [VocabularyEntry.name_of_term? ht]
  | any => rfl
  | hedge _ _ _ ih => simpa using ih

/-- A factor is a chain of one operand. -/
theorem Derives.chain {ws : List String} {c : Condition} (h : Derives v .factor ws c) (k : Connective) :
    Derives v (.chain k) ws c := by
  cases k with
  | or => exact .operand (.operand h)
  | and => exact .operand h

theorem Derives.operand_of_factor {ws : List String} {c : Condition} (h : Derives v .factor ws c)
    (k : Connective) : Derives v (.operand k) ws c := by
  cases k with
  | or => exact h.chain .and
  | and => exact h

/-- The text of a condition that was read is a factor with this condition. The parentheses of the text need not
be those of the words, so that only the tree is the same. -/
theorem Derives.text {n : Phrase} {ws : List String} {c : Condition} (h : Derives v n ws c)
    (hws : ∀ w ∈ ws, ruleWords w = [w]) : ruleWords c.text = c.words ∧ Derives v .factor c.words c := by
  induction h with
  | operand _ ih => exact ih hws
  | @join k ws us a b _ _ iha ihb =>
    obtain ⟨hatext, ha⟩ := iha fun w hw => hws w (List.mem_append_left _ hw)
    obtain ⟨hbtext, hb⟩ := ihb fun w hw => hws w (List.mem_append_right _ (List.mem_cons_of_mem _ hw))
    have hjoin : Derives v (.chain k) (a.words ++ k.word :: b.words) (.join k a b) :=
      .join (ha.chain k) (hb.operand_of_factor k)
    -- between parentheses stands a whole antecedent, also where the connective is `and`
    have hchain : Derives v (.chain .or) (a.words ++ k.word :: b.words) (.join k a b) := by
      cases k with
      | or => exact hjoin
      | and => exact .operand hjoin
    refine ⟨Condition.ruleWords_join hatext hbtext, ?_⟩
    have hgroup := Derives.group hchain
    rwa [List.append_assoc, List.cons_append] at hgroup
  | negation _ ih =>
    obtain ⟨htext, hc⟩ := ih fun w hw => hws w (List.mem_cons_of_mem _ hw)
    exact ⟨Condition.ruleWords_negation htext, .negation hc⟩
  | group _ ih => exact ih fun w hw => hws w (List.mem_cons_of_mem _ (List.mem_append_left _ hw))
  | @proposition name e ws hedges t hname he htargets =>
    have hsubject : e.ref.name = name := by simpa using List.find?_some he
    -- hedges and terms are shown by the names that they were found by
    have hwords : name :: "is" :: ws = (Condition.proposition ⟨e.ref, hedges, t⟩).words := by
      rw [Condition.words, Proposition.words, htargets.words_eq, hsubject]
      rfl
    rw [hwords] at hws
    rw [← hwords]
    exact ⟨(Proposition.ruleWords_text hws).trans hwords.symm, .proposition hname he htargets⟩

/-- What follows an antecedent makes a longer antecedent of it only with a connective. -/
theorem Derives.eq_word_of_append {ws us : List String} {w : String} {c c' : Condition}
    (h : Derives v (.chain .or) ws c) (h' : Derives v (.chain .or) (ws ++ w :: us) c') :
    w = "and" ∨ w = "or" := by
  by_contra hne
  simp only [not_or] at hne
  obtain ⟨hlt, hread⟩ := reads_of_derives h (w :: us) (by simpa using hne.1) (by simpa using hne.2)
  have hreads := reads_of_derives h' [] nofun nofun
  rw [List.append_nil] at hreads
  obtain ⟨hlt', hread'⟩ := hreads
  rw [hread] at hread'
  cases hread'

end ConditionReader

/-! ### Conclusions -/

theorem VocabularyEntry.Concludes.words_eq {e : VocabularyEntry} {ws : List String} {hedges : List Hedge}
    {t : TermRef} (h : e.Concludes ws hedges t) : ws = hedges.map Hedge.name ++ [t.name] := by
  induction h with
  | term ht => simp [VocabularyEntry.name_of_term? ht]
  | hedge _ _ ih => simpa using ih

/-- The words of propositions with a word between two. -/
def joinedWords (w : String) : List Proposition → List String
  | [] => []
  | p :: ps => p.words ++ ps.flatMap fun q => w :: q.words

/-- The text of propositions with a word between two. -/
def joinedText (w : String) (ps : List Proposition) : String :=
  String.intercalate (" " ++ w ++ " ") (ps.map Proposition.text)

section Joined

variable {w : String} {ps : List Proposition}

theorem mem_joinedWords {u : String} (h : u ∈ joinedWords w ps) (hu : u ≠ w) : ∃ p ∈ ps, u ∈ p.words := by
  cases ps with
  | nil => cases h
  | cons p ps =>
    rcases List.mem_append.1 h with h | h
    · exact ⟨p, List.mem_cons_self, h⟩
    · obtain ⟨q, hq, hmem⟩ := List.mem_flatMap.1 h
      exact ⟨q, List.mem_cons_of_mem _ hq, (List.mem_cons.1 hmem).resolve_left hu⟩

theorem mem_joinedWords_of_mem {p : Proposition} (hp : p ∈ ps) {u : String} (h : u ∈ p.words) :
    u ∈ joinedWords w ps := by
  cases ps with
  | nil => cases hp
  | cons q ps =>
    rcases List.mem_cons.1 hp with rfl | hp
    · exact List.mem_append_left _ h
    · exact List.mem_append_right _ (List.mem_flatMap.2 ⟨p, hp, List.mem_cons_of_mem _ h⟩)

theorem ruleWords_joinedText (hw : ruleWords w = [w]) (h : ∀ u ∈ joinedWords w ps, ruleWords u = [u]) :
    ruleWords (joinedText w ps) = joinedWords w ps := by
  have htext : ∀ p ∈ ps, ruleWords p.text = p.words := fun p hp =>
    Proposition.ruleWords_text fun u hu => h u (mem_joinedWords_of_mem hp hu)
  cases ps with
  | nil => exact ruleWords_empty
  | cons p ps =>
    have htail : ps.flatMap (fun q => w :: ruleWords q.text) = ps.flatMap fun q => w :: q.words :=
      List.flatMap_congr fun q hq => by rw [htext q (List.mem_cons_of_mem _ hq)]
    have hsplit := ruleWords_intercalate hw p.text (ps.map Proposition.text)
    rw [htext p List.mem_cons_self, List.flatMap_map, htail] at hsplit
    exact hsplit

end Joined

namespace Vocabulary

variable {v : Vocabulary} {ws : List String} {ps : List Proposition}

theorem IsClause.words_eq {p : Proposition} (h : v.IsClause ws p) : ws = p.words := by
  obtain ⟨he, htarget, -⟩ := h
  have hsubject := List.find?_some he
  simp only [beq_iff_eq] at hsubject
  rw [htarget.words_eq, ← hsubject]
  rfl

theorem IsConsequent.words_eq (h : v.IsConsequent ws ps) : ws = joinedWords "and" ps := by
  induction h with
  | last hp => rw [hp.words_eq, joinedWords, List.flatMap_nil, List.append_nil]
  | @and ws us p ps hp hps ih =>
    rw [hp.words_eq, ih]
    cases ps with
    | nil => exact absurd rfl hps.ne_nil
    | cons q ps => rfl

/-- The text of conclusions that were read gives these conclusions. -/
theorem IsConsequent.text (h : v.IsConsequent ws ps) (hws : ∀ w ∈ ws, ruleWords w = [w]) :
    v.IsConsequent (ruleWords (joinedText "and" ps)) ps := by
  obtain rfl := h.words_eq
  rwa [ruleWords_joinedText (ruleWords_keyword (by decide)) hws]

end Vocabulary

/-! ## §3 Words of rules -/

/-- The text of a rule with these parts. -/
def ruleText (antecedent consequent : String) (weight : Option String) : String :=
  "if " ++ antecedent ++ " then " ++ consequent ++ (weight.map (" with " ++ ·)).getD ""

/-- The words of the text of a rule, around those of its parts. -/
theorem words_ruleText (antecedent consequent : String) {weight : Option String}
    (hweight : ∀ w ∈ weight, Text.IsWord w) :
    Text.words (ruleText antecedent consequent weight) =
      "if" :: (Text.words antecedent ++
        "then" :: (Text.words consequent ++ (weight.map fun w => ["with", w]).getD [])) := by
  have hunweighted : Text.words ("if " ++ antecedent ++ " then " ++ consequent) =
      "if" :: (Text.words antecedent ++ "then" :: Text.words consequent) := by
    have hspaces : "if " ++ antecedent ++ " then " ++ consequent =
        "if" ++ " " ++ antecedent ++ " " ++ "then" ++ " " ++ consequent := by
      have hif : "if " = "if" ++ " " := by decide
      have hthen : " then " = " " ++ "then" ++ " " := by decide
      rw [hif, hthen]
      simp only [String.append_assoc]
    have hif : Text.words "if" = ["if"] := words_keyword (by decide)
    have hthen : Text.words "then" = ["then"] := words_keyword (by decide)
    rw [hspaces, Text.words_append_space, Text.words_append_space, Text.words_append_space, hif, hthen]
    simp
  cases weight with
  | none =>
    rw [ruleText, Option.map_none, Option.getD_none, String.append_empty, hunweighted]
    simp
  | some w =>
    have hspaces : ruleText antecedent consequent (some w) =
        "if " ++ antecedent ++ " then " ++ consequent ++ " " ++ "with" ++ " " ++ w := by
      have hwith : " with " = " " ++ "with" ++ " " := by decide
      rw [ruleText, Option.map_some, Option.getD_some, hwith]
      simp only [String.append_assoc]
    have hwith : Text.words "with" = ["with"] := words_keyword (by decide)
    rw [hspaces, Text.words_append_space, Text.words_append_space, hunweighted, hwith, (hweight w rfl).words]
    simp

/-- A text is a rule with the parts that it was put together from. -/
theorem Vocabulary.isRule_of_parts {v : Vocabulary} {antecedent consequent : String} {c : Condition}
    {ps : List Proposition} {weight : Option String}
    (hc : ConditionReader.Derives v (.chain .or) (ruleWords antecedent) c)
    (hps : v.IsConsequent (ruleWords consequent) ps) (hthen : "then" ∉ Text.words antecedent)
    (hwith : "with" ∉ Text.words consequent)
    (hweight : ∀ w ∈ weight, Text.IsWord w ∧ ∃ x, Scalar.read? w = some x) :
    v.IsRule (Text.words (ruleText antecedent consequent weight)) c ps (weight.bind Scalar.read?) := by
  rw [← ruleWords_unwords_words] at hc hps
  rw [words_ruleText _ _ fun w hw => (hweight w hw).1]
  cases weight with
  | none =>
    rw [Option.map_none, Option.getD_none, List.append_nil]
    exact .unweighted hthen hwith hc hps
  | some w =>
    obtain ⟨-, x, hx⟩ := hweight w rfl
    rw [Option.map_some, Option.getD_some, Option.bind_some, hx]
    exact .weighted hthen hx hc hps

/-- What a rule shows of its weight is read as a weight like this one. -/
theorem exists_of_survives {weight : Float} (h : SurvivesText weight) :
    (∀ w ∈ weightShown weight, Text.IsWord w ∧ ∃ x, Scalar.read? w = some x) ∧
      Float.Alike (((weightShown weight).bind Scalar.read?).getD 1.0) weight := by
  rcases h with rfl | ⟨hnear, x, hx, halike⟩
  · have hnone : weightShown 1.0 = none := by decide +kernel
    rw [hnone]
    exact ⟨nofun, .inl (by decide +kernel)⟩
  · have hsome : weightShown weight = some (Scalar.text defaultDecimals weight) := by simp [weightShown, hnear]
    rw [hsome, Option.bind_some, hx]
    refine ⟨fun w hw => ?_, halike⟩
    cases hw
    exact ⟨(Decimal.isNumberText_fixedText weight defaultDecimals).isWord, x, hx⟩

/-- A `then` in the antecedent cuts the text of the rule too early. -/
theorem RuleText.not_read_of_mem {v : Vocabulary} {c : Condition} {rest : List String} {rule : String}
    (hwords : Text.words rule = "if" :: (Text.words c.text ++ "then" :: rest))
    (hc : ConditionReader.Derives v (.chain .or) (ruleWords c.text) c) (hthen : "then" ∈ Text.words c.text)
    {parts : RuleText} (hparts : split rule = .ok parts) (c' : Condition) :
    readCondition v parts.antecedent ≠ .ok c' := by
  intro hread
  obtain ⟨as, bs, hcut, has⟩ := List.eq_append_cons_of_mem hthen
  rw [hcut, List.append_assoc, List.cons_append] at hwords
  rw [split_eq hwords has] at hparts
  obtain ⟨⟨cs, weight⟩, -, hparts⟩ := bind_eq_ok_iff.1 hparts
  cases hparts
  rw [readCondition_eq_ok_iff] at hread
  -- the antecedent would go on after a shorter antecedent
  have hthenWord : ruleWords "then" = ["then"] := ruleWords_keyword (by decide)
  rw [← ruleWords_unwords_words, hcut, ruleWords_unwords, List.flatMap_append, List.flatMap_cons, hthenWord,
    ← ruleWords_unwords] at hc
  exact absurd (hread.eq_word_of_append hc) (by decide)

namespace Rule

variable {v : Vocabulary} {r : Rule Float} {c : Condition} {ps : List Proposition}

theorem shown_eq (hc : r.antecedent = some c) (hps : r.conclusions = ps) (hne : ps ≠ []) :
    r.shown = ruleText c.text (joinedText "and" ps) (weightShown r.weight) := by
  have hloaded : r.isLoaded = true := by simp [isLoaded, hc, hps, hne]
  simp only [shown, hloaded, if_true, antecedentShown, hc, consequentShown, hps, List.isEmpty_iff, hne, if_false,
    ruleText, weightShown, joinedText]
  split <;> rfl

/-- What was read of a rule is read of its words too, also where it is shown. -/
theorem derives_of_load (h : (r.load v).2 = .ok ()) (hc : (r.load v).1.antecedent = some c) :
    ConditionReader.Derives v (.chain .or) (ruleWords c.text) c ∧ ruleWords c.text = c.words ∧
      v.IsConsequent (ruleWords (joinedText "and" (r.load v).1.conclusions)) (r.load v).1.conclusions := by
  obtain ⟨parts, c', ps, hparts, hread, hps⟩ := exists_of_load h
  rw [load_eq hparts hread hps] at hc ⊢
  cases hc
  obtain ⟨htext, hderives⟩ := (readCondition_eq_ok_iff.1 hread).text fun w hw => ruleWords_of_mem hw
  rw [htext]
  exact ⟨hderives.chain .or, rfl, (readConclusions_eq_ok_iff.1 hps).text fun w hw => ruleWords_of_mem hw⟩

/-- A rule of which no conclusion mentions `with` shows that word only before its weight. -/
theorem with_not_mem_words (h : v.IsConsequent (ruleWords (joinedText "and" ps)) ps)
    (hwith : ∀ p ∈ ps, ¬p.Names "with") : "with" ∉ Text.words (joinedText "and" ps) := by
  intro hmem
  have hrule := mem_ruleWords_of_mem_words hmem (ruleWords_keyword (by decide))
  rw [h.words_eq] at hrule
  obtain ⟨p, hp, hword⟩ := mem_joinedWords hrule (by decide)
  exact hwith p hp (Proposition.names_of_mem_words hword (by decide) (by decide))

/-- An antecedent that mentions no variable or term called `then` does not show that word. -/
theorem then_not_mem_words (h : ruleWords c.text = c.words) (hthen : ∀ p ∈ c.propositions, ¬p.Names "then") :
    "then" ∉ Text.words c.text := by
  intro hmem
  have hrule := mem_ruleWords_of_mem_words hmem (ruleWords_keyword (by decide))
  rw [h] at hrule
  obtain ⟨p, hp, hword⟩ := Condition.mem_words hrule (by decide)
  exact hthen p hp (Proposition.names_of_mem_words hword (by decide) (by decide))

/-- The text of a loaded rule is a rule with the same antecedent, the same conclusions and the same weight, and
is shown as the same text, unless it shows `then` as a word of the antecedent; then it is no rule. That is so
where no conclusion mentions `with` and the weight survives its text. -/
theorem parse_shown (hload : (r.load v).2 = .ok ()) (hc : (r.load v).1.antecedent = some c)
    (hwith : ∀ p ∈ (r.load v).1.conclusions, ¬p.Names "with") (hweight : SurvivesText (r.load v).1.weight) :
    ("then" ∉ Text.words c.text → ∃ r', (parse v (r.load v).1.shown).value = .ok r' ∧
      r'.antecedent = some c ∧ r'.conclusions = (r.load v).1.conclusions ∧
      Float.Alike r'.weight (r.load v).1.weight ∧ r'.shown = (r.load v).1.shown) ∧
    ("then" ∈ Text.words c.text → ∀ r', (parse v (r.load v).1.shown).value ≠ .ok r') := by
  obtain ⟨hderives, -, hps⟩ := derives_of_load hload hc
  have hshown := shown_eq hc rfl hps.ne_nil
  rw [hshown]
  constructor
  · intro hthen
    obtain ⟨hread, halike⟩ := exists_of_survives hweight
    have hrule := Vocabulary.isRule_of_parts hderives hps hthen (with_not_mem_words hps hwith) hread
    obtain ⟨r', hparse, hc', hps', hweight'⟩ := parse_of_isRule hrule
    rw [← hweight'] at halike
    refine ⟨r', hparse, hc', hps', halike, ?_⟩
    rw [shown_eq hc' hps' hps.ne_nil, weightShown_eq halike]
  · intro hthen r' hparse
    obtain ⟨parts, c', ps', hparts, hread, -⟩ := exists_of_load (load_of_parse hparse)
    have hwords := words_ruleText c.text (joinedText "and" (r.load v).1.conclusions)
      fun w hw => ((exists_of_survives hweight).1 w hw).1
    exact RuleText.not_read_of_mem hwords hderives hthen hparts c' hread

/-- A vocabulary in which a term is called `then`. -/
def ambientVocabulary : Vocabulary where
  inputs := [⟨⟨0, "Ambient", false⟩, [⟨0, "DARK"⟩, ⟨1, "then"⟩]⟩]
  outputs := [⟨⟨1, "Power", true⟩, [⟨0, "HIGH"⟩]⟩]

/-- A rule about that term and another one, of weight a quarter. -/
def ambientRule : Rule Float :=
  ofText "if not (Ambient is very DARK or Ambient is then) then Power is HIGH with .25"

def ambientCondition : Condition :=
  .negation (.join .or (.proposition ⟨⟨0, "Ambient", false⟩, [.very], some ⟨0, "DARK"⟩⟩)
    (.proposition ⟨⟨0, "Ambient", false⟩, [], some ⟨1, "then"⟩⟩))

theorem eq_ok_of_isOk {ε : Type} {x : Except ε Unit} (h : x.isOk = true) : x = .ok () := by
  cases x with
  | ok => rfl
  | error e => cases h

theorem load_ambientRule :
    (ambientRule.load ambientVocabulary).2.isOk = true ∧
      (ambientRule.load ambientVocabulary).1.antecedent = some ambientCondition ∧
      (∀ p ∈ (ambientRule.load ambientVocabulary).1.conclusions, ¬p.Names "with") ∧
      (ambientRule.load ambientVocabulary).1.weight = 0.25 ∧
      (ambientRule.load ambientVocabulary).1.shown =
        "if not (Ambient is very DARK or Ambient is then) then Power is HIGH with 0.250" := by
  decide +kernel

/-- The parentheses of the disjunction keep the term apart from the keyword. -/
theorem parse_shown_ambient :
    (ambientRule.load ambientVocabulary).1.shown =
        "if not (Ambient is very DARK or Ambient is then) then Power is HIGH with 0.250" ∧
      ∃ r', (parse ambientVocabulary (ambientRule.load ambientVocabulary).1.shown).value = .ok r' ∧
        r'.antecedent = some ambientCondition ∧
        r'.shown = (ambientRule.load ambientVocabulary).1.shown := by
  obtain ⟨hload, hc, hwith, hweight, htext⟩ := load_ambientRule
  have hsurvives : SurvivesText (ambientRule.load ambientVocabulary).1.weight := by
    rw [hweight]
    exact .inr ⟨by decide +kernel, 0.25, by decide +kernel, .inl (by decide +kernel)⟩
  obtain ⟨r', hparse, hc', -, -, hshown⟩ := (parse_shown (v := ambientVocabulary) (r := ambientRule)
    (c := ambientCondition) (eq_ok_of_isOk hload) hc hwith hsurvives).1 (by decide +kernel)
  exact ⟨htext, r', hparse, hc', hshown⟩

/-- The text of a rule about that term alone is no rule. -/
theorem not_parse_shown_ambient :
    let r := (ofText "if (Ambient is then) then Power is HIGH").load ambientVocabulary
    r.2.isOk = true ∧ (∀ p ∈ r.1.conclusions, ¬p.Names "with") ∧ r.1.weight = 1.0 ∧
      r.1.shown = "if Ambient is then then Power is HIGH" ∧
      (parse ambientVocabulary r.1.shown).value.isOk = false := by
  decide +kernel

end Rule

end FuzzyInference
