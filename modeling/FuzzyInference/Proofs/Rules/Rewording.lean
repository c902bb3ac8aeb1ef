import FuzzyInference.Proofs.Loading
import FuzzyInference.Proofs.Rules.Weights

/-!
# Rules that are reworded

The text of a rule may be changed, and the rule loaded again, any number of times, and any of the loads may fail.
The antecedent and the conclusions of a rule are those of the text that was loaded last. The weight is not: it is
taken as soon as a text is cut into its parts, so that a load that fails may change it, and a text that gives no
weight leaves that of an earlier one.

The plan of this module:

* the weight that a text gives;
* a load that fails;
* any sequence of loads and changes of the text.

## Main statements

* `RuleText.weight?_eq_some_iff`: the texts that give a weight
* `Rule.load_failed`: a load that fails
* `Rule.load_revised`: a load at the end of a sequence
-/

namespace FuzzyInference

open Checked

/-! ## §1 The weight that a text gives -/

namespace RuleText

/-- The weight that is taken of a text once it is cut into its parts. -/
def weight? (text : String) : Option Float :=
  match split text with
  | .ok parts => parts.weight
  | .error _ => none

/-- A text starts with `if`, goes on with a `then`, and ends in `with` and the number. -/
def GivesWeight (text : String) (x : Float) : Prop :=
  ∃ as cs w, Text.words text = "if" :: (as ++ "then" :: (cs ++ ["with", w])) ∧ "then" ∉ as ∧
    Scalar.read? w = some x

theorem weight?_eq_some_iff {text : String} {x : Float} : weight? text = some x ↔ GivesWeight text x := by
  unfold weight?
  constructor
  · intro h
    cases hsplit : split text with
    | error fault =>
      rw [hsplit] at h
      cases h
    | ok parts =>
      rw [hsplit] at h
      obtain ⟨as, after, hwords, hthen⟩ := exists_of_split hsplit
      rw [split_eq hwords hthen] at hsplit
      obtain ⟨⟨cs, weight⟩, hweight, hparts⟩ := bind_eq_ok_iff.1 hsplit
      cases hparts
      rcases splitWeight_cases hweight with ⟨-, -, rfl⟩ | ⟨w, y, rfl, hw, rfl⟩
      · cases h
      · cases h
        exact ⟨as, cs, w, hwords, hthen, hw⟩
  · rintro ⟨as, cs, w, hwords, hthen, hw⟩
    rw [split_eq hwords hthen, splitWeight_append text cs hw]
    rfl

end RuleText

/-! ## §2 A load that fails -/

namespace Rule

/-- The weight is taken of the text that is loaded, whether the text can be read or not. -/
theorem weight_load_eq (v : Vocabulary) (r : Rule Float) :
    (r.load v).1.weight = (RuleText.weight? r.text).getD r.weight := by
  unfold RuleText.weight?
  cases hsplit : RuleText.split r.text with
  | error fault => exact weight_load_of_error v hsplit
  | ok parts => exact weight_load_of_split v hsplit

/-- A load that fails leaves the rule unloaded, but for what was taken of the parts of its text. -/
theorem fst_load_of_error {v : Vocabulary} {r : Rule Float} {e : RuleError} (h : (r.load v).2 = .error e) :
    (r.load v).1 = r.unload ∨ ∃ parts, (r.load v).1 = r.unload.takeParts parts := by
  unfold load at h ⊢
  dsimp only at h ⊢
  split
  · exact .inl rfl
  · rename_i parts hparts
    rw [hparts] at h
    dsimp only at h
    split
    · exact .inr ⟨parts, rfl⟩
    · rename_i c hc
      rw [hc] at h
      dsimp only at h
      split
      · exact .inr ⟨parts, rfl⟩
      · rename_i ps hps
        rw [hps] at h
        cases h

/-- Whatever a rule was before, a load that fails leaves it without antecedent and conclusions, of degree zero and
untriggered, with its text, and enabled if it was. The weight is that of the text, if the text gives one: it is
what it was before only if the text gives no other. -/
theorem load_failed {v : Vocabulary} {r : Rule Float} {e : RuleError} (h : (r.load v).2 = .error e) :
    ((r.load v).1.antecedent = none ∧ (r.load v).1.conclusions = [] ∧ (r.load v).1.degree = 0.0 ∧
      (r.load v).1.triggered = false ∧ (r.load v).1.text = r.text ∧ (r.load v).1.enabled = r.enabled) ∧
    (∀ x, RuleText.GivesWeight r.text x → (r.load v).1.weight = x) ∧
    ((∀ x, ¬RuleText.GivesWeight r.text x) → (r.load v).1.weight = r.weight) ∧
    ((r.load v).1.weight = r.weight ↔ ∀ x, RuleText.GivesWeight r.text x → x = r.weight) := by
  have hweight := weight_load_eq v r
  refine ⟨?_, fun x hx => ?_, fun hnone => ?_, ?_⟩
  · rcases fst_load_of_error h with hunload | ⟨parts, hparts⟩
    · rw [hunload]
      exact ⟨rfl, rfl, rfl, rfl, rfl, rfl⟩
    · rw [hparts]
      exact ⟨rfl, rfl, rfl, rfl, rfl, rfl⟩
  · rw [hweight, RuleText.weight?_eq_some_iff.2 hx, Option.getD_some]
  · have hnot : RuleText.weight? r.text = none :=
      Option.eq_none_iff_forall_not_mem.2 fun x hx => hnone x (RuleText.weight?_eq_some_iff.1 hx)
    rw [hweight, hnot, Option.getD_none]
  · rw [hweight]
    simp only [← RuleText.weight?_eq_some_iff]
    cases RuleText.weight? r.text with
    | none => simp
    | some x => simp

/-- A loaded rule of weight one whose text is replaced by one with an unknown term and a weight. -/
def misworded : Rule Float :=
  { ((ofText "if a is DARK then y is HIGH").load Engine.lamps.vocabulary).1 with
    text := "if a is NOPE then y is HIGH with 0.5" }

/-- The load fails and leaves the weight of the text behind. -/
theorem load_failed_misworded :
    ∃ e, (misworded.load Engine.lamps.vocabulary).2 = .error e ∧ misworded.weight = 1.0 ∧
      (misworded.load Engine.lamps.vocabulary).1.antecedent = none ∧
      (misworded.load Engine.lamps.vocabulary).1.weight = 0.5 ∧
      ¬(misworded.load Engine.lamps.vocabulary).1.weight = misworded.weight := by
  have hfails : (misworded.load Engine.lamps.vocabulary).2.isOk = false := by decide +kernel
  obtain ⟨e, he⟩ : ∃ e, (misworded.load Engine.lamps.vocabulary).2 = .error e := by
    generalize (misworded.load Engine.lamps.vocabulary).2 = result at hfails
    cases result with
    | error e => exact ⟨e, rfl⟩
    | ok u => cases hfails
  have hwas : misworded.weight = 1.0 := by decide +kernel
  have hbecame : (misworded.load Engine.lamps.vocabulary).1.weight = 0.5 := by decide +kernel
  have hne : (0.5 : Float) ≠ 1.0 := by decide +kernel
  obtain ⟨⟨hantecedent, -⟩, -⟩ := load_failed he
  refine ⟨e, he, hwas, hantecedent, hbecame, ?_⟩
  rw [hbecame, hwas]
  exact hne

/-! ## §3 Sequences -/

/-- What may be done to a rule on the way. -/
inductive Revision
  /-- The rule is loaded against a vocabulary; this may fail. -/
  | load (v : Vocabulary)
  | unload
  /-- The rule is given another text. -/
  | write (text : String)

def revise (r : Rule Float) : Revision → Rule Float
  | .load v => (r.load v).1
  | .unload => r.unload
  | .write text => { r with text := text }

/-- The rule after all of them, in order. -/
def revised (r : Rule Float) (ss : List Revision) : Rule Float := ss.foldl revise r

/-- The texts that are loaded on the way, starting with the given one. -/
def loadedTexts (text : String) : List Revision → List String
  | [] => []
  | .load _ :: ss => text :: loadedTexts text ss
  | .unload :: ss => loadedTexts text ss
  | .write text' :: ss => loadedTexts text' ss

/-- The weight that the last of some texts gives that gives any, or the one from before. -/
def keptWeight (before : Float) (texts : List String) : Float :=
  (texts.filterMap RuleText.weight?).getLast?.getD before

theorem keptWeight_cons (before : Float) (text : String) (texts : List String) :
    keptWeight before (text :: texts) = keptWeight ((RuleText.weight? text).getD before) texts := by
  unfold keptWeight
  cases hweight : RuleText.weight? text with
  | none => rw [List.filterMap_cons_none hweight, Option.getD_none]
  | some x => rw [List.filterMap_cons_some hweight, List.getLast?_cons, Option.getD_some, Option.getD_some]

/-- The weight is that of the last text that was loaded and gave one, whether it could be read or not. -/
theorem weight_revised (r : Rule Float) (ss : List Revision) :
    (r.revised ss).weight = keptWeight r.weight (loadedTexts r.text ss) := by
  -- by induction on what is left to do; a load takes the weight over that the rest starts with
  induction ss generalizing r with
  | nil => rfl
  | cons s ss ih =>
    have hcons : r.revised (s :: ss) = (r.revise s).revised ss := rfl
    rw [hcons, ih]
    cases s with
    | load v =>
      have htext : (r.revise (.load v)).text = r.text := text_load v r
      have hweight : (r.revise (.load v)).weight = (RuleText.weight? r.text).getD r.weight := weight_load_eq v r
      rw [htext, hweight, loadedTexts, keptWeight_cons]
    | unload => rfl
    | write text => rfl

/-- A fresh rule is parsed exactly if it can be loaded. -/
theorem parse_eq_ok_iff {v : Vocabulary} {text : String} {r : Rule Float} :
    (parse v text).value = .ok r ↔ ((ofText text).load v).2 = .ok () ∧ r = ((ofText text).load v).1 := by
  unfold parse loadReporting
  rcases (ofText text).load v with ⟨r', e | ⟨⟩⟩
  · constructor
    · intro h
      cases h
    · rintro ⟨h, -⟩
      cases h
  · constructor
    · intro h
      cases h
      exact ⟨rfl, rfl⟩
    · rintro ⟨-, rfl⟩
      rfl

/-- Whatever was loaded, unloaded and reworded before, a rule can be loaded exactly if a fresh rule of its text can
be parsed, and then has the same antecedent and the same conclusions. The weight is that of its text if this gives
one. If not, the weight of a fresh rule is one, but this one keeps the weight of the last text before that gave
any, so that the two agree only where this weight is one or there is none. -/
theorem load_revised (v : Vocabulary) (text : String) (ss : List Revision) :
    ((((ofText text).revised ss).load v).2 = .ok () ↔
      ∃ fresh, (parse v ((ofText text).revised ss).text).value = .ok fresh) ∧
    ∀ fresh, (parse v ((ofText text).revised ss).text).value = .ok fresh →
      (((ofText text).revised ss).load v).1.antecedent = fresh.antecedent ∧
      (((ofText text).revised ss).load v).1.conclusions = fresh.conclusions ∧
      fresh.weight = (RuleText.weight? ((ofText text).revised ss).text).getD 1.0 ∧
      (((ofText text).revised ss).load v).1.weight =
        (RuleText.weight? ((ofText text).revised ss).text).getD (keptWeight 1.0 (loadedTexts text ss)) ∧
      ((((ofText text).revised ss).load v).1.weight = fresh.weight ↔
        (∃ x, RuleText.GivesWeight ((ofText text).revised ss).text x) ∨
          keptWeight 1.0 (loadedTexts text ss) = 1.0) := by
  have hkept : ((ofText text).revised ss).weight = keptWeight 1.0 (loadedTexts text ss) :=
    weight_revised (ofText text) ss
  generalize (ofText text).revised ss = r at hkept ⊢
  obtain ⟨hresult, hantecedent, hconclusions, -⟩ := load_congr v (r := r) (s := ofText r.text) rfl
  constructor
  · rw [hresult]
    constructor
    · intro h
      exact ⟨_, parse_eq_ok_iff.2 ⟨h, rfl⟩⟩
    · rintro ⟨fresh, hfresh⟩
      exact (parse_eq_ok_iff.1 hfresh).1
  · intro fresh hfresh
    obtain ⟨-, rfl⟩ := parse_eq_ok_iff.1 hfresh
    have hfreshWeight : ((ofText r.text).load v).1.weight = (RuleText.weight? r.text).getD 1.0 :=
      weight_load_eq v (ofText r.text)
    have hweight := weight_load_eq v r
    rw [hkept] at hweight
    refine ⟨hantecedent, hconclusions, hfreshWeight, hweight, ?_⟩
    rw [hweight, hfreshWeight]
    simp only [← RuleText.weight?_eq_some_iff]
    cases RuleText.weight? r.text with
    | none => simp
    | some x => simp

/-- A rule is loaded with a weight, and again once this is struck from its text: it keeps the weight. -/
theorem load_revised_struck :
    ∃ fresh, (parse Engine.lamps.vocabulary "if a is DARK then y is HIGH").value = .ok fresh ∧
      fresh.weight = 1.0 ∧
      (((ofText "if a is DARK then y is HIGH with 0.5").revised
        [.load Engine.lamps.vocabulary, .write "if a is DARK then y is HIGH"]).load
          Engine.lamps.vocabulary).1.antecedent = fresh.antecedent ∧
      (((ofText "if a is DARK then y is HIGH with 0.5").revised
        [.load Engine.lamps.vocabulary, .write "if a is DARK then y is HIGH"]).load
          Engine.lamps.vocabulary).1.weight = 0.5 := by
  have hloads : (((ofText "if a is DARK then y is HIGH with 0.5").revised
      [.load Engine.lamps.vocabulary, .write "if a is DARK then y is HIGH"]).load
        Engine.lamps.vocabulary).2.isOk = true := by decide +kernel
  have hkept : keptWeight 1.0 (loadedTexts "if a is DARK then y is HIGH with 0.5"
      [.load Engine.lamps.vocabulary, .write "if a is DARK then y is HIGH"]) = 0.5 := by decide +kernel
  have hnone : (RuleText.weight? "if a is DARK then y is HIGH") = none := by
    rw [← Option.isNone_iff_eq_none]
    decide +kernel
  obtain ⟨hiff, hsame⟩ := load_revised Engine.lamps.vocabulary "if a is DARK then y is HIGH with 0.5"
    [.load Engine.lamps.vocabulary, .write "if a is DARK then y is HIGH"]
  obtain ⟨fresh, hfresh⟩ := hiff.1 (eq_ok_of_isOk hloads)
  obtain ⟨hantecedent, -, hfreshWeight, hweight, -⟩ := hsame fresh hfresh
  have htext : ((ofText (α := Float) "if a is DARK then y is HIGH with 0.5").revised
      [.load Engine.lamps.vocabulary, .write "if a is DARK then y is HIGH"]).text =
        "if a is DARK then y is HIGH" := rfl
  rw [htext] at hfresh
  rw [htext, hnone] at hfreshWeight hweight
  exact ⟨fresh, hfresh, hfreshWeight, hantecedent, hweight.trans hkept⟩

end Rule

end FuzzyInference
