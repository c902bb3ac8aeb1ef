import FuzzyInference.Rule.Reader
import Mathlib.Data.List.Chain
import Mathlib.Data.List.TakeWhile

/-!
# Words of texts

Rules are written by joining texts with spaces and parentheses, and read by cutting texts into words. This
module says what the words of joined texts are: those of the parts, in order. For the words of a rule, in
which a parenthesis is a word wherever it stands, it does not matter that a text was cut at its blanks before.

The plan of this module:

* words between blanks;
* words of rules.

## Main statements

* `Text.words_append_space`, `Text.words_unwords`: the words of texts with spaces between them
* `ruleWords_unwords`, `ruleWords_opening`, `ruleWords_closing`: the words of rules
* `ruleWords_unwords_words`: cutting at blanks first
* `words_keyword`, `ruleWords_keyword`: the words of the language
* `flatten_pieces`, `isChain_ruleWords`: the pieces of a word that holds parentheses
-/

namespace FuzzyInference

namespace Text

/-! ## §1 Words between blanks -/

/-- A word: some characters, none of them blank. -/
structure IsWord (s : String) : Prop where
  nonempty : s.toList ≠ []
  blankFree : ∀ c ∈ s.toList, isBlank c = false

/-- The longest run of characters of a kind ends where the next one is of another kind. -/
theorem takeWhile_append_of_stop {p : Char → Bool} {cs rest : List Char} (hcs : ∀ c ∈ cs, p c = true)
    (hrest : ∀ c ∈ rest.head?, p c = false) :
    (cs ++ rest).takeWhile p = cs ∧ (cs ++ rest).dropWhile p = rest := by
  rw [List.takeWhile_append_of_pos hcs, List.dropWhile_append_of_pos hcs]
  cases rest with
  | nil => exact ⟨List.append_nil cs, rfl⟩
  | cons c rest =>
    have hc : ¬p c = true := by simpa using hrest
    rw [List.takeWhile_cons_of_neg hc, List.dropWhile_cons_of_neg hc]
    exact ⟨List.append_nil cs, rfl⟩

theorem wordsOf_cons_blank {c : Char} (hc : isBlank c = true) (cs : List Char) :
    wordsOf (c :: cs) = wordsOf cs := by
  rw [wordsOf, if_pos hc]

theorem wordsOf_cons {c : Char} (hc : isBlank c = false) (cs : List Char) :
    wordsOf (c :: cs) = (c :: cs.takeWhile (! isBlank ·)) :: wordsOf (cs.dropWhile (! isBlank ·)) := by
  rw [wordsOf, if_neg (by simp [hc])]

/-- A blank separates words. -/
theorem wordsOf_append_blank {b : Char} (hb : isBlank b = true) (cs ds : List Char) :
    wordsOf (cs ++ b :: ds) = wordsOf cs ++ wordsOf ds := by
  fun_induction wordsOf cs with
  | case1 => rw [List.nil_append, wordsOf_cons_blank hb, List.nil_append]
  | case2 c rest hc ih => rw [List.cons_append, wordsOf_cons_blank hc, ih]
  | case3 c rest hc ih =>
    rw [List.cons_append, wordsOf_cons (by simpa using hc), List.takeWhile_append, List.dropWhile_append]
    by_cases hall : rest.dropWhile (! isBlank ·) = []
    · -- the first word reaches up to the blank
      have htake : rest.takeWhile (! isBlank ·) = rest :=
        List.takeWhile_eq_self_iff.2 (List.dropWhile_eq_nil_iff.1 hall)
      rw [hall, htake, if_pos rfl, if_pos (by rfl), List.takeWhile_cons_of_neg (by simp [hb]),
        List.dropWhile_cons_of_neg (by simp [hb]), List.append_nil, wordsOf_cons_blank hb, wordsOf]
      rfl
    · have htake : (rest.takeWhile (! isBlank ·)).length ≠ rest.length := by
        intro hlength
        have hself := (List.takeWhile_prefix (! isBlank ·)).eq_of_length hlength
        exact hall (List.dropWhile_eq_nil_iff.2 (List.takeWhile_eq_self_iff.1 hself))
      rw [if_neg htake, if_neg (by simpa using hall), ih]
      rfl

theorem wordsOf_word {w : List Char} (hne : w ≠ []) (h : ∀ c ∈ w, isBlank c = false) : wordsOf w = [w] := by
  cases w with
  | nil => exact absurd rfl hne
  | cons c cs =>
    have hcs : ∀ d ∈ cs, (! isBlank d) = true := fun d hd => by simp [h d (List.mem_cons_of_mem _ hd)]
    rw [wordsOf_cons (h c List.mem_cons_self), List.takeWhile_eq_self_iff.2 hcs,
      List.dropWhile_eq_nil_iff.2 hcs, wordsOf]

theorem words_append_space (s t : String) : words (s ++ " " ++ t) = words s ++ words t := by
  have hchars : (s ++ " " ++ t).toList = s.toList ++ ' ' :: t.toList := by simp
  rw [words, hchars, wordsOf_append_blank (by decide), List.map_append]
  rfl

theorem IsWord.words {w : String} (h : IsWord w) : words w = [w] := by
  rw [Text.words, wordsOf_word h.nonempty h.blankFree, List.map_singleton, String.ofList_toList]

/-- The words of texts with one space between two. -/
theorem words_unwords (ss : List String) : words (unwords ss) = ss.flatMap words := by
  induction ss with
  | nil => rw [unwords, String.intercalate_nil, words, String.toList_empty, wordsOf, List.map_nil, List.flatMap_nil]
  | cons s ss ih =>
    cases ss with
    | nil => simp [unwords]
    | cons t ss =>
      rw [List.flatMap_cons, ← ih, unwords, String.intercalate_cons_cons, words_append_space]
      rfl

/-- A word has no blanks to lose at its ends. -/
theorem IsWord.trim {w : String} (h : IsWord w) : Text.trim w = w := by
  have hsame : ∀ {cs : List Char}, (∀ c ∈ cs, isBlank c = false) → cs.dropWhile isBlank = cs := by
    intro cs hcs
    cases cs with
    | nil => rfl
    | cons c cs => exact List.dropWhile_cons_of_neg (by simp [hcs c List.mem_cons_self])
  rw [Text.trim, trimStart, hsame h.blankFree, trimEnd, hsame fun c hc => h.blankFree c (List.mem_reverse.1 hc),
    List.reverse_reverse, String.ofList_toList]

/-- No blank is at the end of the text. -/
theorem trimRight_eq {s : String} (h : ∀ c ∈ s.toList.getLast?, isBlank c = false) : trimRight s = s := by
  have hhead : s.toList.reverse.dropWhile isBlank = s.toList.reverse := by
    cases hs : s.toList.reverse with
    | nil => rfl
    | cons c cs =>
      have hc : isBlank c = false := h c (by simp [List.getLast?_eq_head?_reverse, hs])
      exact List.dropWhile_cons_of_neg (by simp [hc])
  rw [trimRight, trimEnd, hhead, List.reverse_reverse, String.ofList_toList]

end Text

/-! ## §2 Words of rules -/

open Text

theorem padParentheses_nil : padParentheses [] = [] := rfl

theorem padParentheses_cons (c : Char) (cs : List Char) :
    padParentheses (c :: cs) = (if c = '(' || c = ')' then [' ', c, ' '] else [c]) ++ padParentheses cs :=
  List.flatMap_cons

theorem padParentheses_append (cs ds : List Char) :
    padParentheses (cs ++ ds) = padParentheses cs ++ padParentheses ds :=
  List.flatMap_append

theorem padParentheses_cons_blank {c : Char} (hc : isBlank c = true) (cs : List Char) :
    padParentheses (c :: cs) = c :: padParentheses cs := by
  have hne : (decide (c = '(') || decide (c = ')')) = false := by
    rw [Bool.or_eq_false_iff, decide_eq_false_iff_not, decide_eq_false_iff_not]
    constructor <;> rintro rfl <;> cases hc
  rw [padParentheses_cons, hne]
  rfl

theorem ruleWords_append_space (s t : String) : ruleWords (s ++ " " ++ t) = ruleWords s ++ ruleWords t := by
  have hchars : (s ++ " " ++ t).toList = s.toList ++ ' ' :: t.toList := by simp
  rw [ruleWords, hchars, padParentheses_append, padParentheses_cons_blank (by decide),
    wordsOf_append_blank (by decide), List.map_append]
  rfl

theorem ruleWords_empty : ruleWords "" = [] := by
  rw [ruleWords, String.toList_empty, padParentheses_nil, wordsOf, List.map_nil]

/-- The words of texts with one space between two. -/
theorem ruleWords_unwords (ss : List String) : ruleWords (unwords ss) = ss.flatMap ruleWords := by
  induction ss with
  | nil => exact ruleWords_empty
  | cons s ss ih =>
    cases ss with
    | nil => simp [unwords]
    | cons t ss =>
      rw [List.flatMap_cons, ← ih, unwords, String.intercalate_cons_cons, ruleWords_append_space]
      rfl

/-- A word between texts. -/
theorem ruleWords_intercalate {w : String} (hw : ruleWords w = [w]) (s : String) (ss : List String) :
    ruleWords (String.intercalate (" " ++ w ++ " ") (s :: ss)) =
      ruleWords s ++ ss.flatMap fun t => w :: ruleWords t := by
  induction ss generalizing s with
  | nil => simp
  | cons t ss ih =>
    have hspaces : s ++ (" " ++ w ++ " ") ++ String.intercalate (" " ++ w ++ " ") (t :: ss) =
        s ++ " " ++ w ++ " " ++ String.intercalate (" " ++ w ++ " ") (t :: ss) := by
      simp only [String.append_assoc]
    rw [String.intercalate_cons_cons, hspaces, ruleWords_append_space, ruleWords_append_space, hw, ih]
    simp

/-- A parenthesis that was set apart is a word of its own. -/
theorem wordsOf_set_apart {c : Char} (hc : c = '(' ∨ c = ')') (cs : List Char) :
    wordsOf ([' ', c, ' '] ++ cs) = [c] :: wordsOf cs := by
  have hblank : isBlank c = false := by rcases hc with rfl | rfl <;> decide
  have hword : wordsOf [c] = [[c]] := wordsOf_word (by simp) (by simpa using hblank)
  rw [List.cons_append, wordsOf_cons_blank (by decide)]
  exact (wordsOf_append_blank (by decide) [c] cs).trans (by rw [hword, List.singleton_append])

theorem ruleWords_opening (s : String) : ruleWords ("(" ++ s) = "(" :: ruleWords s := by
  have hchars : ("(" ++ s).toList = '(' :: s.toList := by simp
  rw [ruleWords, hchars, padParentheses_cons, if_pos (by decide), wordsOf_set_apart (.inl rfl)]
  rfl

theorem ruleWords_closing (s : String) : ruleWords (s ++ ")") = ruleWords s ++ [")"] := by
  have hchars : (s ++ ")").toList = s.toList ++ [')'] := by simp
  have hpad : padParentheses [')'] = ' ' :: [')', ' '] := rfl
  have hword : wordsOf [')', ' '] = [[')']] := by
    refine (wordsOf_append_blank (by decide) [')'] []).trans ?_
    rw [wordsOf_word (by simp) (by simp [isBlank, blankCodes]), wordsOf, List.append_nil]
  rw [ruleWords, hchars, padParentheses_append, hpad, wordsOf_append_blank (by decide), hword, List.map_append]
  rfl

/-- Setting parentheses apart cuts words and joins none. -/
theorem wordsOf_padParentheses (cs : List Char) :
    wordsOf (padParentheses cs) = (wordsOf cs).flatMap fun w => wordsOf (padParentheses w) := by
  fun_induction wordsOf cs with
  | case1 => rw [padParentheses_nil, wordsOf, List.flatMap_nil]
  | case2 c rest hc ih => rw [padParentheses_cons_blank hc, wordsOf_cons_blank hc, ih]
  | case3 c rest hc ih =>
    have hrest : c :: rest = (c :: rest.takeWhile (! isBlank ·)) ++ rest.dropWhile (! isBlank ·) := by
      rw [List.cons_append, List.takeWhile_append_dropWhile]
    rw [List.flatMap_cons, ← ih, hrest, padParentheses_append]
    -- a blank follows the first word, or nothing does
    cases hdrop : rest.dropWhile (! isBlank ·) with
    | nil => rw [padParentheses_nil, wordsOf, List.append_nil, List.append_nil]
    | cons b after =>
      have hb : isBlank b = true := by
        have hnot := List.head?_dropWhile_not (! isBlank ·) rest
        simpa [hdrop] using hnot
      rw [padParentheses_cons_blank hb, wordsOf_append_blank hb, wordsOf_cons_blank hb]

theorem ruleWords_eq_flatMap (s : String) : ruleWords s = (words s).flatMap ruleWords := by
  rw [ruleWords, wordsOf_padParentheses, words, List.map_flatMap, List.flatMap_map]
  simp only [ruleWords, String.toList_ofList]

/-- It makes no difference to the words of a rule that a text was cut at its blanks before. -/
theorem ruleWords_unwords_words (s : String) : ruleWords (unwords (words s)) = ruleWords s := by
  rw [ruleWords_unwords, ← ruleWords_eq_flatMap]

/-- A word of a text that is a word of a rule is one of the words of the text as a part of a rule. -/
theorem mem_ruleWords_of_mem_words {s w : String} (h : w ∈ words s) (hw : ruleWords w = [w]) :
    w ∈ ruleWords s := by
  rw [ruleWords_eq_flatMap]
  exact List.mem_flatMap.2 ⟨w, h, by rw [hw]; exact List.mem_singleton_self w⟩

/-- A run of characters that are not blank keeps away from parentheses that were set apart. -/
theorem not_mem_takeWhile_padParentheses (cs : List Char) :
    '(' ∉ (padParentheses cs).takeWhile (! isBlank ·) ∧ ')' ∉ (padParentheses cs).takeWhile (! isBlank ·) := by
  induction cs with
  | nil => exact ⟨nofun, nofun⟩
  | cons c cs ih =>
    rw [padParentheses_cons]
    split
    · exact ⟨nofun, nofun⟩
    · rename_i hc
      simp only [Bool.or_eq_true, decide_eq_true_eq, not_or] at hc
      rw [List.singleton_append, List.takeWhile_cons]
      split
      · exact ⟨by simpa using ⟨Ne.symm hc.1, ih.1⟩, by simpa using ⟨Ne.symm hc.2, ih.2⟩⟩
      · exact ⟨nofun, nofun⟩

theorem mem_wordsOf_of_mem_dropWhile {cs w : List Char} (h : w ∈ wordsOf (cs.dropWhile (! isBlank ·))) :
    w ∈ wordsOf cs := by
  cases cs with
  | nil => exact h
  | cons c cs =>
    cases hc : isBlank c with
    | true =>
      rw [List.dropWhile_cons_of_neg (by simp [hc])] at h
      exact h
    | false =>
      rw [List.dropWhile_cons_of_pos (by simp [hc])] at h
      rw [wordsOf_cons hc]
      exact List.mem_cons_of_mem _ h

/-- A word of a rule is a parenthesis or has none. -/
theorem parenthesis_cases {cs w : List Char} (h : w ∈ wordsOf (padParentheses cs)) :
    w = ['('] ∨ w = [')'] ∨ '(' ∉ w ∧ ')' ∉ w := by
  induction cs with
  | nil =>
    rw [padParentheses_nil, wordsOf] at h
    cases h
  | cons c cs ih =>
    rw [padParentheses_cons] at h
    split at h
    · rename_i hc
      simp only [Bool.or_eq_true, decide_eq_true_eq] at hc
      rw [wordsOf_set_apart hc] at h
      rcases List.mem_cons.1 h with rfl | h
      · rcases hc with rfl | rfl
        · exact .inl rfl
        · exact .inr (.inl rfl)
      · exact ih h
    · rename_i hc
      simp only [Bool.or_eq_true, decide_eq_true_eq, not_or] at hc
      rw [List.singleton_append] at h
      cases hblank : isBlank c with
      | true =>
        rw [wordsOf_cons_blank hblank] at h
        exact ih h
      | false =>
        rw [wordsOf_cons hblank] at h
        rcases List.mem_cons.1 h with rfl | h
        · obtain ⟨hopening, hclosing⟩ := not_mem_takeWhile_padParentheses cs
          exact .inr (.inr ⟨by simpa using ⟨Ne.symm hc.1, hopening⟩, by simpa using ⟨Ne.symm hc.2, hclosing⟩⟩)
        · exact ih (mem_wordsOf_of_mem_dropWhile h)

theorem padParentheses_eq_self {cs : List Char} (hopening : '(' ∉ cs) (hclosing : ')' ∉ cs) :
    padParentheses cs = cs := by
  induction cs with
  | nil => rfl
  | cons c cs ih =>
    obtain ⟨hopening, hopening'⟩ := List.ne_and_not_mem_of_not_mem_cons hopening
    obtain ⟨hclosing, hclosing'⟩ := List.ne_and_not_mem_of_not_mem_cons hclosing
    rw [padParentheses_cons, if_neg (by simp [hopening.symm, hclosing.symm]), ih hopening' hclosing',
      List.singleton_append]

/-- A word without parentheses is a word of a rule. -/
theorem ruleWords_of_isWord {w : String} (h : IsWord w) (hopening : '(' ∉ w.toList) (hclosing : ')' ∉ w.toList) :
    ruleWords w = [w] := by
  rw [ruleWords, padParentheses_eq_self hopening hclosing, wordsOf_word h.nonempty h.blankFree,
    List.map_singleton, String.ofList_toList]

/-- The text is one word, and there is no parenthesis in it. -/
def isBareWord (w : String) : Bool :=
  !w.toList.isEmpty && w.toList.all fun c => !isBlank c && c != '(' && c != ')'

theorem isBareWord_iff {w : String} :
    isBareWord w = true ↔ IsWord w ∧ '(' ∉ w.toList ∧ ')' ∉ w.toList := by
  simp only [isBareWord, Bool.and_eq_true, Bool.not_eq_true', List.isEmpty_eq_false_iff, List.all_eq_true,
    bne_iff_ne]
  constructor
  · rintro ⟨hne, hall⟩
    exact ⟨⟨hne, fun c hc => (hall c hc).1.1⟩, fun hmem => (hall _ hmem).1.2 rfl, fun hmem => (hall _ hmem).2 rfl⟩
  · rintro ⟨hword, hopening, hclosing⟩
    refine ⟨hword.nonempty, fun c hc => ⟨⟨hword.blankFree c hc, ?_⟩, ?_⟩⟩
    · rintro rfl
      exact hopening hc
    · rintro rfl
      exact hclosing hc

theorem ruleWords_of_isBareWord {w : String} (h : isBareWord w = true) : ruleWords w = [w] := by
  obtain ⟨hword, hopening, hclosing⟩ := isBareWord_iff.1 h
  exact ruleWords_of_isWord hword hopening hclosing

/-- The words that rules are built with. -/
def ruleKeywords : List String := ["if", "is", "then", "and", "or", "not", "with"]

theorem isBareWord_keyword : ∀ w ∈ ruleKeywords, isBareWord w = true := by decide

theorem words_keyword {w : String} (h : w ∈ ruleKeywords) : words w = [w] :=
  (isBareWord_iff.1 (isBareWord_keyword w h)).1.words

theorem ruleWords_keyword {w : String} (h : w ∈ ruleKeywords) : ruleWords w = [w] :=
  ruleWords_of_isBareWord (isBareWord_keyword w h)

/-- A word of a rule is one also when it stands alone. -/
theorem ruleWords_of_mem {s w : String} (h : w ∈ ruleWords s) : ruleWords w = [w] := by
  obtain ⟨cs, hcs, rfl⟩ := List.mem_map.1 h
  obtain ⟨hne, hblank⟩ := wordsOf_blank_free _ cs hcs
  rcases parenthesis_cases hcs with rfl | rfl | ⟨hopening, hclosing⟩
  · have hword := ruleWords_opening ""
    rwa [String.append_empty, ruleWords_empty] at hword
  · have hword := ruleWords_closing ""
    rwa [String.empty_append, ruleWords_empty] at hword
  · refine ruleWords_of_isWord ⟨?_, ?_⟩ ?_ ?_
    · rwa [String.toList_ofList]
    · rwa [String.toList_ofList]
    · rwa [String.toList_ofList]
    · rwa [String.toList_ofList]

/-! ### Pieces of a word -/

theorem isWord_of_mem_words {s w : String} (h : w ∈ words s) : IsWord w := by
  obtain ⟨cs, hcs, rfl⟩ := List.mem_map.1 h
  obtain ⟨hne, hblank⟩ := wordsOf_blank_free _ cs hcs
  exact ⟨by rwa [String.toList_ofList], by rwa [String.toList_ofList]⟩

/-- Words lose nothing but blanks. -/
theorem flatten_wordsOf (cs : List Char) : (wordsOf cs).flatten = cs.filter (! isBlank ·) := by
  fun_induction wordsOf cs with
  | case1 => rfl
  | case2 c rest hc ih => rw [ih, List.filter_cons_of_neg (by simp [hc])]
  | case3 c rest hc ih =>
    have hword : (rest.takeWhile (! isBlank ·)).filter (! isBlank ·) = rest.takeWhile (! isBlank ·) :=
      List.filter_eq_self.2 fun d hd => List.mem_takeWhile_imp (p := (! isBlank ·)) hd
    have hrest : rest.filter (! isBlank ·) =
        rest.takeWhile (! isBlank ·) ++ (rest.dropWhile (! isBlank ·)).filter (! isBlank ·) := by
      have happend := congrArg (List.filter (! isBlank ·))
        (List.takeWhile_append_dropWhile (p := (! isBlank ·)) (l := rest))
      rw [List.filter_append, hword] at happend
      exact happend.symm
    rw [List.flatten_cons, ih, List.filter_cons_of_pos (by simpa using hc), hrest, List.cons_append]

theorem filter_padParentheses (cs : List Char) :
    (padParentheses cs).filter (! isBlank ·) = cs.filter (! isBlank ·) := by
  induction cs with
  | nil => rfl
  | cons c cs ih =>
    rw [padParentheses_cons, List.filter_append, ih]
    split
    · have hspace : isBlank ' ' = true := by decide
      rw [List.filter_cons_of_neg (by simp [hspace]), List.filter_cons, List.filter_cons_of_neg (by simp [hspace]),
        List.filter_nil, List.filter_cons]
      split <;> rfl
    · rw [List.filter_cons, List.filter_cons]
      split <;> rfl

/-- A word is put together again from its pieces. -/
theorem flatten_pieces {w : String} (h : IsWord w) : ((ruleWords w).map String.toList).flatten = w.toList := by
  have hpieces : (ruleWords w).map String.toList = wordsOf (padParentheses w.toList) := by
    simp [ruleWords, Function.comp_def]
  rw [hpieces, flatten_wordsOf, filter_padParentheses]
  exact List.filter_eq_self.2 fun c hc => by simp [h.blankFree c hc]

theorem ruleWords_ne_nil {w : String} (h : IsWord w) : ruleWords w ≠ [] := by
  intro hnil
  have hflatten := flatten_pieces h
  rw [hnil] at hflatten
  exact h.nonempty hflatten.symm

/-- A word of one piece is this piece. -/
theorem eq_of_ruleWords_eq {u w : String} (h : IsWord w) (hw : ruleWords w = [u]) : w = u := by
  have hflatten := flatten_pieces h
  rw [hw, List.map_singleton, List.flatten_singleton] at hflatten
  exact String.toList_inj.1 hflatten.symm

/-- One of two pieces is a parenthesis. -/
def MeetsParenthesis (a b : List Char) : Prop := (a = ['('] ∨ a = [')']) ∨ b = ['('] ∨ b = [')']

/-- Pieces of a word that stand side by side meet at a parenthesis. -/
theorem isChain_wordsOf_padParentheses {cs : List Char} (h : ∀ c ∈ cs, isBlank c = false) :
    (wordsOf (padParentheses cs)).IsChain MeetsParenthesis := by
  -- a piece that the first characters belong to ends before a parenthesis
  suffices hpieces : (∀ b ∈ (wordsOf ((padParentheses cs).dropWhile (! isBlank ·))).head?, b = ['('] ∨ b = [')']) ∧
      (wordsOf ((padParentheses cs).dropWhile (! isBlank ·))).IsChain MeetsParenthesis ∧
      (wordsOf (padParentheses cs)).IsChain MeetsParenthesis from hpieces.2.2
  induction cs with
  | nil =>
    rw [padParentheses_nil, List.dropWhile_nil, wordsOf]
    exact ⟨by simp, .nil, .nil⟩
  | cons c cs ih =>
    obtain ⟨hhead, hrest, hall⟩ := ih fun d hd => h d (List.mem_cons_of_mem _ hd)
    rw [padParentheses_cons]
    split
    · rename_i hc
      have hc : c = '(' ∨ c = ')' := by simpa using hc
      have hpiece : [c] = ['('] ∨ [c] = [')'] := hc.imp (congrArg fun d => [d]) (congrArg fun d => [d])
      have hspace : ([' ', c, ' '] ++ padParentheses cs).dropWhile (! isBlank ·) =
          [' ', c, ' '] ++ padParentheses cs := List.dropWhile_cons_of_neg (by decide)
      have hchain := List.isChain_cons.2 ⟨fun b _ => .inl hpiece, hall⟩
      rw [hspace, wordsOf_set_apart hc]
      exact ⟨by simpa using hpiece, hchain, hchain⟩
    · have hc : isBlank c = false := h c List.mem_cons_self
      rw [List.singleton_append, List.dropWhile_cons_of_pos (by simp [hc]), wordsOf_cons hc]
      exact ⟨hhead, hrest, List.isChain_cons.2 ⟨fun b hb => .inr (hhead b hb), hrest⟩⟩

/-- Of two such pieces, one is a parenthesis. -/
theorem isChain_ruleWords {w : String} (h : IsWord w) :
    (ruleWords w).IsChain fun a b => a ∈ ["(", ")"] ∨ b ∈ ["(", ")"] := by
  have hparenthesis : ∀ cs, cs = ['('] ∨ cs = [')'] → String.ofList cs ∈ ["(", ")"] := by
    rintro cs (rfl | rfl)
    · decide
    · decide
  rw [ruleWords, List.isChain_map]
  exact (isChain_wordsOf_padParentheses h.blankFree).imp fun a b => Or.imp (hparenthesis a) (hparenthesis b)

end FuzzyInference
