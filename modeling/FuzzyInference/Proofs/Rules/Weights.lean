import FuzzyInference.Proofs.Decimal.Significant
import FuzzyInference.Proofs.Rules.Coded

/-!
# Weights of rules given by codes

The weight of a rule that is given by codes reaches the rule through its text, which shows six significant
digits and leaves out a weight near to one. So a weight near to one becomes one, and any other weight becomes the
number that is read of six digits: itself if it has no more digits, and another number otherwise. The weights of
rules given in words are read as they are written.

Names that are no words may spoil the text of a rule, but not its weight, unless they end in a weight of their
own.

The plan of this module:

* the weight of a text;
* the weight of codes.

## Main statements

* `Rule.weight_load`: the weight that is taken of a text
* `Engine.weight_coded`: the weight that an engine takes of codes
-/

namespace FuzzyInference

open Scalar Checked

/-! ## §1 The weight of a text -/

namespace Rule

/-- The weight is taken of a text that is cut into its parts, whether they can be read or not. -/
theorem weight_load_of_split (v : Vocabulary) {r : Rule Float} {parts : RuleText}
    (h : RuleText.split r.text = .ok parts) : (r.load v).1.weight = parts.weight.getD r.weight := by
  have hunload : r.unload.text = r.text := rfl
  unfold load
  dsimp only
  rw [hunload, h]
  dsimp only
  split
  · rfl
  · split
    · rfl
    · rfl

/-- The weight of a text whose words are known. -/
theorem weight_load_of_words (v : Vocabulary) {text : String} {as after cs : List String} {weight : Option Float}
    (hwords : Text.words text = "if" :: (as ++ "then" :: after)) (hthen : "then" ∉ as)
    (hweight : RuleText.splitWeight text after = .ok (cs, weight)) :
    ((ofText text).load v).1.weight = weight.getD 1.0 := by
  have hsplit := RuleText.split_eq hwords hthen
  simp only [hweight, ok_bind, pure_eq_ok] at hsplit
  exact weight_load_of_split (r := ofText text) v hsplit

/-- A text that cannot be cut leaves the weight as it is. -/
theorem weight_load_of_error (v : Vocabulary) {r : Rule Float} {fault : RuleFault}
    (h : RuleText.split r.text = .error fault) : (r.load v).1.weight = r.weight := by
  have hunload : r.unload.text = r.text := rfl
  unfold load
  dsimp only
  rw [hunload, h]
  rfl

/-- The weight is the last word of a text where `with` stands before it, and one otherwise. -/
theorem weight_load (v : Vocabulary) (text : String) :
    ((ofText text).load v).1.weight = 1.0 ∨ ∃ ws w, Text.words text = ws ++ ["with", w] ∧
      Scalar.read? w = some ((ofText text).load v).1.weight := by
  cases hsplit : RuleText.split text with
  | error fault => exact .inl (weight_load_of_error (r := ofText text) v hsplit)
  | ok parts =>
    have hparts : ((ofText text).load v).1.weight = parts.weight.getD 1.0 :=
      weight_load_of_split (r := ofText text) v hsplit
    rw [hparts]
    obtain ⟨as, after, hwords, hthen⟩ := RuleText.exists_of_split hsplit
    rw [RuleText.split_eq hwords hthen] at hsplit
    obtain ⟨⟨cs, weight⟩, hweight, hparts⟩ := bind_eq_ok_iff.1 hsplit
    cases hparts
    rcases RuleText.splitWeight_cases hweight with ⟨-, -, rfl⟩ | ⟨w, x, rfl, hw, rfl⟩
    · exact .inl rfl
    · exact .inr ⟨"if" :: (as ++ "then" :: cs), w, by simpa using hwords, hw⟩

end Rule

/-! ## §2 The weight of codes -/

namespace CodedRule

variable {coded : CodedRule}

/-- The words of a coded rule, around those of its propositions. -/
theorem words_text (coded : CodedRule) : Text.words coded.text =
    "if" :: (Text.words (joinedText coded.connective.word coded.conditions) ++
      "then" :: (Text.words (joinedText "and" coded.conclusions) ++
        ((weightShown coded.weight).map fun w => ["with", w]).getD [])) := by
  rw [text_eq]
  exact words_ruleText _ _ fun w hw => (isWord_weightShown coded.weight w hw).1

/-- Of a weight that is not near one, what its text denotes is taken. -/
theorem weight_of_text (v : Vocabulary) (hnear : near coded.weight 1.0 = false) {x : Float}
    (hread : Scalar.read? (Decimal.significantText weightDigits coded.weight) = some x) :
    ((Rule.ofText coded.text).load v).1.weight = x := by
  have hshown : weightShown coded.weight = some (Decimal.significantText weightDigits coded.weight) := by
    simp [weightShown, hnear]
  have hwords := words_text coded
  rw [hshown, Option.map_some, Option.getD_some] at hwords
  -- names may hold a `then` of their own, so the text is cut at the first one
  obtain ⟨as, cs, hcut, hthen⟩ : ∃ as cs, Text.words coded.text =
      "if" :: (as ++ "then" :: (cs ++ ["with", Decimal.significantText weightDigits coded.weight])) ∧
        "then" ∉ as := by
    by_cases hmem : "then" ∈ Text.words (joinedText coded.connective.word coded.conditions)
    · obtain ⟨as, bs, hbs, has⟩ := List.eq_append_cons_of_mem hmem
      refine ⟨as, bs ++ "then" :: Text.words (joinedText "and" coded.conclusions), ?_, has⟩
      rw [hwords, hbs]
      simp
    · exact ⟨_, _, hwords, hmem⟩
  exact Rule.weight_load_of_words v hcut hthen (RuleText.splitWeight_append _ _ hread)

/-- A weight near to one is not shown, and is one where all names are plain. -/
theorem weight_of_near {v : Vocabulary} (hv : v.IsPlain) {row : List Value} (h : ofCodes v row = .ok coded)
    (hnear : near coded.weight 1.0 = true) : ((Rule.ofText coded.text).load v).1.weight = 1.0 := by
  obtain ⟨inputs, outputs, -, hconditions, hconclusions, hne, hne'⟩ := exists_row h
  obtain ⟨-, -, -, -, hthen⟩ := derives_of_propositions hv hconditions hne coded.connective
  obtain ⟨-, hwith⟩ := isConsequent_of_propositions hv hconclusions hne'
  have hshown : weightShown coded.weight = none := by simp [weightShown, hnear]
  have hwords := words_text coded
  rw [hshown, Option.map_none, Option.getD_none, List.append_nil] at hwords
  exact Rule.weight_load_of_words v hwords hthen (RuleText.splitWeight_of_not_mem _ hwith)

end CodedRule

namespace Engine

/-- What becomes of a finite weight in a row of codes that an engine accepts. If it is not near to one, the rule
gets the number that is read of its six significant digits, which is the same only for a weight that has no more
digits. If it is near to one, the rule gets the weight one, or one that names have brought into the text. Where all
names are plain the rule is loaded, and names bring in no weight. -/
theorem weight_coded (e : Engine Float) {row : List Value} {coded : CodedRule}
    (h : CodedRule.ofCodes e.inventory row = .ok coded) (hfinite : isFinite coded.weight = true) :
    (∃ inputs outputs, CodedRule.IsRow e.inventory row inputs outputs coded.weight coded.connective) ∧
      (near coded.weight 1.0 = false →
        Decimal.IsRounded CodedRule.weightDigits coded.weight ((Rule.ofText coded.text).load e.vocabulary).1.weight ∧
        (((Rule.ofText coded.text).load e.vocabulary).1.weight = coded.weight ↔
          Decimal.HasDigits CodedRule.weightDigits coded.weight)) ∧
      (near coded.weight 1.0 = true → ((Rule.ofText coded.text).load e.vocabulary).1.weight = 1.0 ∨
        ∃ ws w, Text.words coded.text = ws ++ ["with", w] ∧
          Scalar.read? w = some ((Rule.ofText coded.text).load e.vocabulary).1.weight) ∧
      (e.HasPlainNames → e.TermsDiffer → ((Rule.ofText coded.text).load e.vocabulary).2 = .ok () ∧
        (near coded.weight 1.0 = true → ((Rule.ofText coded.text).load e.vocabulary).1.weight = 1.0)) := by
  refine ⟨?_, fun hnear => ?_, fun _ => Rule.weight_load _ _, fun hplain hdiffer => ?_⟩
  · obtain ⟨inputs, outputs, hrow, -⟩ := CodedRule.exists_row h
    exact ⟨inputs, outputs, hrow⟩
  · have hcount : 0 < CodedRule.weightDigits := by decide
    obtain ⟨x, hread, hrounded⟩ := Decimal.exists_isRounded hcount hfinite
    have hiff := Decimal.readFloat?_significantText_iff hcount (by decide) hfinite
    rw [hread, Option.some.injEq] at hiff
    rw [CodedRule.weight_of_text e.vocabulary hnear hread]
    exact ⟨hrounded, hiff⟩
  · have hv := hplain.inventory_isPlain hdiffer
    rw [hplain.vocabulary_eq]
    obtain ⟨-, -, -, -, r, -, hparse, -⟩ := CodedRule.exists_parse hv h
    exact ⟨Rule.load_of_parse hparse, CodedRule.weight_of_near hv h⟩

/-- The terms `DARK` of `a` and `HIGH` of `y`, with a weight of seven digits. -/
def fineRow : List Value := [.int 1, .int 0, .int 2, .float 0.1234567, .int 1]

def fineRule : CodedRule where
  conditions := [⟨⟨0, "a", false⟩, [], some ⟨0, "DARK"⟩⟩]
  connective := .and
  conclusions := [⟨⟨1, "y", true⟩, [], some ⟨1, "HIGH"⟩⟩]
  weight := 0.1234567

/-- The rule that is loaded has lost the seventh digit. -/
theorem weight_coded_fine :
    fineRule.text = "if a is DARK then y is HIGH with 0.123457" ∧
      ((Rule.ofText fineRule.text).load lamps.vocabulary).1.weight = 0.123457 ∧
      ((Rule.ofText fineRule.text).load lamps.vocabulary).2 = .ok () ∧
      ¬Decimal.HasDigits CodedRule.weightDigits fineRule.weight := by
  have hcoded : (CodedRule.ofCodes lamps.inventory fineRow).toOption = some fineRule := by decide +kernel
  have hweight : ((Rule.ofText fineRule.text).load lamps.vocabulary).1.weight = 0.123457 := by decide +kernel
  have hne : (0.123457 : Float) ≠ fineRule.weight := by decide +kernel
  obtain ⟨-, hkept, -, hloaded⟩ := weight_coded lamps (eq_ok_of_toOption hcoded) (by decide +kernel)
  obtain ⟨-, hiff⟩ := hkept (by decide +kernel)
  rw [hweight] at hiff
  exact ⟨by decide +kernel, hweight, (hloaded hasPlainNames_lamps termsDiffer_lamps).1, fun hdigits =>
    hne (hiff.2 hdigits)⟩

end Engine

end FuzzyInference
