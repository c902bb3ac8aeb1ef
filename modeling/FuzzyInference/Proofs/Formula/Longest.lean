import FuzzyInference.Proofs.Formula.Tokens
import FuzzyInference.Proofs.Value

/-!
# Formulas as rows of longest tokens

What tokens look like is said by a grammar of characters, apart from the functions that scan them: numbers with
digits of any script, names, and seventeen signs. The first token of a text is the longest one that the text
starts with. A formula consists of tokens when they can be taken off one by one as first tokens, with nothing
but blanks before, between and behind them.

Every text either consists of tokens, which are determined by the text, or comes to a character where no token
starts. Cutting a formula finds the tokens, or shows this character.

No token holds a blank. So a token before a blank is always the first one there, and tokens with spaces between
them are cut into the same tokens again.

The plan of this module:

* the forms of tokens;
* one token: the longest is scanned;
* all tokens: a text is taken apart up to its end or up to where no token starts;
* formulas.

## Main statements

* `Token.scan?_eq_some_iff`, `Token.scan?_eq_none_iff`: one token
* `Token.consists_or_stuck`: all tokens
* `Token.consists_unwords`: tokens with spaces between them
* `tokenize_spec`: formulas
-/

namespace FuzzyInference.Formula

open Text Decimal

namespace Token

/-! ## §1 The forms of tokens -/

/-- The digits of a number, of any script. A point may stand before, among or behind them, but not alone. -/
inductive IsDecimal : List Char → Prop
  | digits {ds : List Char} (hne : ds ≠ []) (hds : ∀ c ∈ ds, isDigit c = true) : IsDecimal ds
  | pointed {whole fraction : List Char} (hne : whole ++ fraction ≠ [])
      (hwhole : ∀ c ∈ whole, isDigit c = true) (hfraction : ∀ c ∈ fraction, isDigit c = true) :
      IsDecimal (whole ++ '.' :: fraction)

/-- The exponent of a number: a letter, perhaps a sign, and digits of any script. It may be missing. -/
inductive IsExponent : List Char → Prop
  | missing : IsExponent []
  | written {letter : Char} {sign ds : List Char} (hletter : letter = 'e' ∨ letter = 'E')
      (hsign : sign = [] ∨ sign = ['+'] ∨ sign = ['-']) (hne : ds ≠ []) (hds : ∀ c ∈ ds, isDigit c = true) :
      IsExponent (letter :: (sign ++ ds))

/-- The characters of a number. -/
def IsNumber (cs : List Char) : Prop := ∃ ds es, IsDecimal ds ∧ IsExponent es ∧ cs = ds ++ es

/-- The signs, as written. -/
def signs : List String :=
  ["<=", ">=", "==", "!=", "-", "+", "*", "/", "%", "^", "<", ">", "!", "~", "(", ")", ","]

/-- The token is written like a number or like a name, or is one of the signs. -/
def HasForm : Token → Prop
  | number s => IsNumber s.toList
  | word s => IsName s.toList
  | symbol s => (symbol s).text ∈ signs

theorem hasForm_symbol (s : Symbol) : (symbol s).HasForm := by
  cases s <;> simp [HasForm, text, Symbol.chars, signs]

theorem IsDecimal.ne_nil {ds : List Char} (h : IsDecimal ds) : ds ≠ [] := by
  cases h with
  | digits hne _ => exact hne
  | pointed _ _ _ => simp

theorem IsDecimal.mem {ds : List Char} (h : IsDecimal ds) {c : Char} (hc : c ∈ ds) :
    isDigit c = true ∨ c = '.' := by
  cases h with
  | digits _ hds => exact .inl (hds c hc)
  | pointed _ hwhole hfraction =>
    rcases List.mem_append.1 hc with hc | hc
    · exact .inl (hwhole c hc)
    · rcases List.mem_cons.1 hc with hc | hc
      · exact .inr hc
      · exact .inl (hfraction c hc)

theorem IsExponent.mem {es : List Char} (h : IsExponent es) {c : Char} (hc : c ∈ es) :
    isDigit c = true ∨ c ∈ ['e', 'E', '+', '-'] := by
  cases h with
  | missing => exact absurd hc List.not_mem_nil
  | written hletter hsign _ hds =>
    rcases List.mem_cons.1 hc with rfl | hc
    · rcases hletter with rfl | rfl
      · exact .inr (by decide)
      · exact .inr (by decide)
    · rcases List.mem_append.1 hc with hc | hc
      · rcases hsign with rfl | rfl | rfl
        · exact absurd hc List.not_mem_nil
        · obtain rfl := List.mem_singleton.1 hc
          exact .inr (by decide)
        · obtain rfl := List.mem_singleton.1 hc
          exact .inr (by decide)
      · exact .inl (hds c hc)

theorem IsNumber.isBlank_eq_false {cs : List Char} (h : IsNumber cs) {c : Char} (hc : c ∈ cs) :
    isBlank c = false := by
  have hletters : ∀ d ∈ ['.', 'e', 'E', '+', '-'], isBlank d = false :=
    List.all_iff_forall_prop.1 (by decide)
  obtain ⟨ds, es, hds, hes, rfl⟩ := h
  rcases List.mem_append.1 hc with hc | hc
  · rcases hds.mem hc with hdigit | hpoint
    · exact (basicDigit_of_isDigit hdigit).1
    · exact hletters c (by simp [hpoint])
  · rcases hes.mem hc with hdigit | hletter
    · exact (basicDigit_of_isDigit hdigit).1
    · exact hletters c (List.mem_cons_of_mem _ hletter)

/-- No token is empty. -/
theorem HasForm.ne_nil {t : Token} (h : t.HasForm) : t.text.toList ≠ [] := by
  cases t with
  | number s =>
    obtain ⟨ds, es, hds, -, hs⟩ := h
    rw [text, hs]
    exact List.append_ne_nil_of_left_ne_nil hds.ne_nil es
  | word s => exact (IsName.isWord h).nonempty
  | symbol s =>
    obtain ⟨c, cs, hcs, -⟩ := chars_spec s
    simp [text, hcs]

/-- No token holds a blank. -/
theorem HasForm.isBlank_eq_false {t : Token} (h : t.HasForm) : ∀ c ∈ t.text.toList, isBlank c = false := by
  cases t with
  | number s => exact fun c hc => IsNumber.isBlank_eq_false h hc
  | word s => exact (IsName.isWord h).blankFree
  | symbol s =>
    rw [text, String.toList_ofList]
    cases s <;> exact List.all_iff_forall_prop.1 (by decide)

/-- The first character of a number is a digit or a point. -/
theorem IsDecimal.exists_head {ds : List Char} (h : IsDecimal ds) :
    ∃ c cs, ds = c :: cs ∧ (isDigit c = true ∨ c = '.') := by
  obtain ⟨c, cs, rfl⟩ := List.exists_cons_of_ne_nil h.ne_nil
  exact ⟨c, cs, rfl, h.mem List.mem_cons_self⟩

theorem HasForm.wellFormed {t : Token} (h : t.HasForm) : t.WellFormed := by
  cases t with
  | number s =>
    obtain ⟨ds, es, hds, -, hs⟩ := h
    obtain ⟨c, cs, rfl, hc⟩ := hds.exists_head
    exact ⟨c, by rw [hs]; rfl, hc⟩
  | word s => exact h
  | symbol s => trivial

/-- Characters that are not blank do not reach beyond a blank. -/
theorem prefix_of_blankFree {w cs rest : List Char} (hw : ∀ c ∈ w, isBlank c = false)
    (hrest : ∀ c ∈ rest.head?, isBlank c = true) (h : w <+: cs ++ rest) : w <+: cs := by
  rcases List.prefix_or_prefix_of_prefix h (List.prefix_append cs rest) with hshort | ⟨v, rfl⟩
  · exact hshort
  · cases v with
    | nil => exact ⟨[], by rw [List.append_nil, List.append_nil]⟩
    | cons c v =>
      -- the character behind `cs` would be blank, and one of `w`
      obtain ⟨after, rfl⟩ := (List.prefix_append_right_inj cs).1 h
      have hblank : isBlank c = true := hrest c rfl
      have hnot : isBlank c = false := hw c (by simp)
      rw [hblank] at hnot
      cases hnot

/-! ## §2 One token -/

/-! ### Numbers -/

/-- The digits that a text starts with end before a point, or before a character that is no part of a number's
digits. -/
theorem exists_whole (cs : List Char) : ∃ whole rest, cs = whole ++ rest ∧ (∀ c ∈ whole, isDigit c = true) ∧
    ((∃ after, rest = '.' :: after) ∨ ∀ c ∈ rest.head?, isDigit c = false ∧ c ≠ '.') := by
  refine ⟨cs.takeWhile isDigit, cs.dropWhile isDigit, List.takeWhile_append_dropWhile.symm,
    List.all_eq_true.1 List.all_takeWhile, ?_⟩
  cases hdrop : cs.dropWhile isDigit with
  | nil => exact .inr nofun
  | cons d after =>
    by_cases hd : d = '.'
    · exact .inl ⟨after, by rw [hd]⟩
    · refine .inr fun c hc => ?_
      obtain rfl : d = c := by simpa using hc
      have hhead := List.head?_dropWhile_not isDigit cs
      rw [hdrop] at hhead
      exact ⟨by simpa using hhead, hd⟩

theorem isDecimal_of_scanDecimal? {cs lexeme rest : List Char} (h : scanDecimal? cs = some (lexeme, rest)) :
    IsDecimal lexeme := by
  obtain ⟨whole, after, rfl, hwhole, ⟨fraction, rfl⟩ | hstop⟩ := exists_whole cs
  · rw [scanDecimal?_pointed hwhole] at h
    split at h
    · cases h
    · rename_i hne
      cases h
      exact .pointed hne hwhole (List.all_eq_true.1 List.all_takeWhile)
  · rw [scanDecimal?_plain hwhole hstop] at h
    split at h
    · cases h
    · rename_i hne
      cases h
      exact .digits hne hwhole

/-- Where digits of a number start, all of them are scanned, and perhaps more. -/
theorem IsDecimal.exists_scanDecimal? {ds : List Char} (h : IsDecimal ds) (rest : List Char) :
    ∃ more after, scanDecimal? (ds ++ rest) = some (ds ++ more, after) := by
  cases h with
  | digits hne hds =>
    obtain ⟨whole, after, rfl, hwhole, hafter⟩ := exists_whole rest
    -- digits at the start of the rest are scanned as well, and a point behind them
    have hall : ∀ c ∈ ds ++ whole, isDigit c = true := List.forall_mem_append.2 ⟨hds, hwhole⟩
    rw [← List.append_assoc]
    rcases hafter with ⟨fraction, rfl⟩ | hstop
    · rw [scanDecimal?_pointed hall, if_neg (by simp [hne]), List.append_assoc]
      exact ⟨_, _, rfl⟩
    · rw [scanDecimal?_plain hall hstop, if_neg (by simp [hne])]
      exact ⟨_, _, rfl⟩
  | @pointed whole fraction hne hwhole hfraction =>
    have hsome : whole ++ (fraction ++ rest.takeWhile isDigit) ≠ [] := by
      rw [← List.append_assoc]
      exact List.append_ne_nil_of_left_ne_nil hne _
    rw [List.append_assoc, List.cons_append, scanDecimal?_pointed hwhole, List.takeWhile_append_of_pos hfraction,
      if_neg hsome]
    exact ⟨rest.takeWhile isDigit, _, by rw [List.append_assoc, List.cons_append]⟩

theorem isExponent_scanExponent (cs : List Char) : IsExponent (scanExponent cs).1 := by
  cases cs with
  | nil => exact .missing
  | cons c rest =>
    rw [scanExponent]
    split
    · rename_i h
      simp only [Bool.and_eq_true, Bool.or_eq_true, decide_eq_true_eq, Bool.not_eq_true', List.isEmpty_eq_false_iff]
        at h
      refine .written h.1 ?_ h.2 (List.all_eq_true.1 List.all_takeWhile)
      unfold scanSign
      split <;> simp
    · exact .missing

/-- Digits are no sign. -/
theorem scanSign_append_digits {sign ds : List Char} (hsign : sign = [] ∨ sign = ['+'] ∨ sign = ['-'])
    (hne : ds ≠ []) (hds : ∀ c ∈ ds, isDigit c = true) (rest : List Char) :
    scanSign (sign ++ (ds ++ rest)) = (sign, ds ++ rest) := by
  rcases hsign with rfl | rfl | rfl
  · obtain ⟨d, ds, rfl⟩ := List.exists_cons_of_ne_nil hne
    have hd : isDigit d = true := hds d List.mem_cons_self
    have hplus : d ≠ '+' := by
      rintro rfl
      exact absurd hd (by decide)
    have hminus : d ≠ '-' := by
      rintro rfl
      exact absurd hd (by decide)
    simp [scanSign, hplus, hminus]
  · rfl
  · rfl

/-- Where an exponent starts, all of it is scanned. -/
theorem IsExponent.prefix_scanExponent {es : List Char} (h : IsExponent es) (rest : List Char) :
    es <+: (scanExponent (es ++ rest)).1 := by
  cases h with
  | missing => exact List.nil_prefix
  | @written letter sign ds hletter hsign hne hds =>
    rw [List.cons_append, List.append_assoc, scanExponent, scanSign_append_digits hsign hne hds,
      List.takeWhile_append_of_pos hds]
    have hscanned : ((letter = 'e' || letter = 'E') && !(ds ++ rest.takeWhile isDigit).isEmpty) = true := by
      simp [hletter, hne]
    rw [if_pos hscanned]
    exact ⟨rest.takeWhile isDigit, by simp⟩

theorem isNumber_of_scanNumber? {cs lexeme rest : List Char} (h : scanNumber? cs = some (lexeme, rest)) :
    IsNumber lexeme := by
  obtain ⟨⟨decimal, after⟩, hdecimal, heq⟩ := Option.map_eq_some_iff.1 h
  cases heq
  exact ⟨decimal, _, isDecimal_of_scanDecimal? hdecimal, isExponent_scanExponent after, rfl⟩

/-- Where a number starts, all of it is scanned, and perhaps more. -/
theorem IsNumber.exists_scanNumber? {n : List Char} (h : IsNumber n) (rest : List Char) :
    ∃ lexeme after, scanNumber? (n ++ rest) = some (lexeme, after) ∧ n <+: lexeme := by
  obtain ⟨ds, es, hds, hes, rfl⟩ := h
  obtain ⟨more, after, hscan⟩ := hds.exists_scanDecimal? (es ++ rest)
  refine ⟨ds ++ more ++ (scanExponent after).1, _, by rw [List.append_assoc, scanNumber?, hscan]; rfl, ?_⟩
  have hrest : more ++ after = es ++ rest := by
    have happ := (scanDecimal_append hscan).1
    rwa [List.append_assoc, List.append_cancel_left_eq] at happ
  rw [List.append_assoc, List.prefix_append_right_inj]
  cases more with
  | nil =>
    rw [List.nil_append] at hrest ⊢
    rw [hrest]
    exact hes.prefix_scanExponent rest
  | cons c more =>
    -- more digits or a point follow, and so no exponent
    cases hes with
    | missing => exact List.nil_prefix
    | written hletter =>
      have hc := (isDecimal_of_scanDecimal? hscan).mem (c := c) (by simp)
      obtain ⟨rfl, -⟩ := List.cons.inj hrest
      rcases hletter with rfl | rfl
      · exact absurd hc (by decide)
      · exact absurd hc (by decide)

/-! ### Tokens -/

theorem hasForm_of_scan? {cs rest : List Char} {t : Token} (h : scan? cs = some (t, rest)) : t.HasForm := by
  unfold scan? at h
  split at h
  · rename_i hnumber
    cases h
    rw [HasForm, String.toList_ofList]
    exact isNumber_of_scanNumber? hnumber
  · split at h
    · rename_i hword
      cases h
      rw [HasForm, String.toList_ofList]
      exact isName_of_scanWord? hword
    · obtain ⟨⟨s, after⟩, -, heq⟩ := Option.map_eq_some_iff.1 h
      cases heq
      exact hasForm_symbol s

theorem eq_or_longer {cs ds : List Char} (h : cs <+: ds) : ds = cs ∨ cs.length < ds.length := by
  rcases Nat.lt_or_ge cs.length ds.length with hlt | hge
  · exact .inr hlt
  · exact .inl (h.eq_of_length_le hge).symm

/-- Where a token starts, this one is scanned or a longer one. -/
theorem HasForm.exists_scan? {t : Token} (h : t.HasForm) (rest : List Char) :
    ∃ u after, scan? (t.text.toList ++ rest) = some (u, after) ∧
      (u = t ∨ t.text.toList.length < u.text.toList.length) := by
  cases t with
  | number s =>
    obtain ⟨lexeme, after, hscan, hprefix⟩ := IsNumber.exists_scanNumber? h rest
    refine ⟨number (String.ofList lexeme), after, by rw [text, scan?, hscan], ?_⟩
    rw [text, text, String.toList_ofList]
    refine (eq_or_longer hprefix).imp_left ?_
    rintro rfl
    rw [String.ofList_toList]
  | word s =>
    obtain ⟨c, hhead, hc⟩ := h.starts
    obtain ⟨ds, hs⟩ := List.head?_eq_some_iff.1 hhead
    have hds : ∀ d ∈ ds, continuesWord d = true := fun d hd => h.continues d (by simp [hs, hd])
    refine ⟨word (String.ofList (c :: (ds ++ rest.takeWhile continuesWord))), rest.dropWhile continuesWord, ?_, ?_⟩
    · -- numbers are looked for before words
      rw [text, hs, List.cons_append, scan?,
        scanNumber?_eq_none (isDigit_of_startsWord hc) (ne_point_of_startsWord hc)]
      simp only [scanWord?, if_pos hc, List.takeWhile_append_of_pos hds, List.dropWhile_append_of_pos hds]
    · rw [text, text, String.toList_ofList]
      have hprefix : s.toList <+: c :: (ds ++ rest.takeWhile continuesWord) := ⟨_, by rw [hs, List.cons_append]⟩
      refine (eq_or_longer hprefix).imp_left fun heq => ?_
      rw [heq, String.ofList_toList]
  | symbol s =>
    rw [text, String.toList_ofList]
    by_cases hequal : rest.head? = some '='
    · -- an equality sign is a part of four signs, three of which start with signs of their own
      obtain ⟨after, rfl⟩ := List.head?_eq_some_iff.1 hequal
      cases s with
      | less => exact ⟨symbol .lessEq, after, scan?_of_symbol rfl, .inr (by decide)⟩
      | greater => exact ⟨symbol .greaterEq, after, scan?_of_symbol rfl, .inr (by decide)⟩
      | bang => exact ⟨symbol .notEqual, after, scan?_of_symbol rfl, .inr (by decide)⟩
      | _ => exact ⟨_, _, scan?_of_symbol rfl, .inl rfl⟩
    · exact ⟨symbol s, rest, scan?_symbol (.inr hequal), .inl rfl⟩

/-- The token is the first one of a text: the longest one that the text starts with. -/
structure IsFirst (cs : List Char) (t : Token) (rest : List Char) : Prop where
  form : t.HasForm
  append : t.text.toList ++ rest = cs
  longest : ∀ u : Token, u.HasForm → u.text.toList <+: cs → u.text.toList.length ≤ t.text.toList.length

/-- The first token is scanned. -/
theorem scan?_eq_some_iff {cs rest : List Char} {t : Token} : scan? cs = some (t, rest) ↔ IsFirst cs t rest := by
  constructor
  · intro h
    refine ⟨hasForm_of_scan? h, (scan_append h).1, ?_⟩
    rintro u hu ⟨after, rfl⟩
    -- a token that the text starts with is the scanned one or shorter
    obtain ⟨v, tail, hv, hlonger⟩ := hu.exists_scan? after
    obtain ⟨rfl, rfl⟩ := Prod.mk.inj (Option.some.inj (h.symm.trans hv))
    rcases hlonger with rfl | hlt
    · exact Nat.le_refl _
    · exact Nat.le_of_lt hlt
  · rintro ⟨hform, rfl, hlongest⟩
    obtain ⟨u, after, hscan, rfl | hlt⟩ := hform.exists_scan? rest
    · have hrest := (scan_append hscan).1
      rw [List.append_cancel_left_eq] at hrest
      rw [hscan, hrest]
    · -- the longer one would be the first
      have hle := hlongest u (hasForm_of_scan? hscan) ⟨after, (scan_append hscan).1⟩
      exact absurd hlt (Nat.not_lt.2 hle)

/-- Nothing is scanned where no token starts. -/
theorem scan?_eq_none_iff {cs : List Char} :
    scan? cs = none ↔ ∀ t : Token, t.HasForm → ¬t.text.toList <+: cs := by
  constructor
  · rintro h t ht ⟨rest, rfl⟩
    obtain ⟨u, after, hscan, -⟩ := ht.exists_scan? rest
    rw [h] at hscan
    cases hscan
  · intro h
    cases hscan : scan? cs with
    | none => rfl
    | some found => exact absurd ⟨found.2, (scan_append hscan).1⟩ (h found.1 (hasForm_of_scan? hscan))

/-- A token is the first one before a blank and before the end of the text. -/
theorem HasForm.isFirst {t : Token} (h : t.HasForm) {rest : List Char}
    (hrest : ∀ c ∈ rest.head?, isBlank c = true) : IsFirst (t.text.toList ++ rest) t rest where
  form := h
  append := rfl
  longest _ hu hprefix := (prefix_of_blankFree hu.isBlank_eq_false hrest hprefix).length_le

/-- Blanks at the end of a text do not change its first token. -/
theorem IsFirst.append_blanks {cs rest blanks : List Char} {t : Token} (h : IsFirst cs t rest)
    (hblanks : ∀ c ∈ blanks.head?, isBlank c = true) : IsFirst (cs ++ blanks) t (rest ++ blanks) where
  form := h.form
  append := by rw [← List.append_assoc, h.append]
  longest u hu hprefix := h.longest u hu (prefix_of_blankFree hu.isBlank_eq_false hblanks hprefix)

/-! ## §3 All tokens of a text -/

/-- Tokens that are taken off a text one by one, with the blanks before them, and what is left of the text. -/
inductive Reads : List Char → List Token → List Char → Prop
  | done (cs : List Char) : Reads cs [] cs
  | token {blanks cs rest left : List Char} {t : Token} {ts : List Token}
      (hblanks : ∀ c ∈ blanks, isBlank c = true) (hfirst : IsFirst cs t rest) (hrest : Reads rest ts left) :
      Reads (blanks ++ cs) (t :: ts) left

theorem Reads.cons {cs rest left : List Char} {t : Token} {ts : List Token} (hfirst : IsFirst cs t rest)
    (hrest : Reads rest ts left) : Reads cs (t :: ts) left :=
  @Reads.token [] cs rest left t ts (List.forall_mem_nil _) hfirst hrest

/-- The text consists of these tokens: behind them, only blanks are left. -/
def Consists (cs : List Char) (ts : List Token) : Prop :=
  ∃ left, Reads cs ts left ∧ ∀ c ∈ left, isBlank c = true

/-- Behind some tokens and blanks, the text comes to a character where no token starts. -/
structure StuckAt (cs : List Char) (c : Char) (after : List Char) : Prop where
  reads : ∃ ts blanks, Reads cs ts (blanks ++ c :: after) ∧ ∀ b ∈ blanks, isBlank b = true
  visible : isBlank c = false
  noToken : ∀ t : Token, t.HasForm → ¬t.text.toList <+: c :: after

/-! ### Scanning follows the text -/

/-- The tokens that were taken off come before those of what is left. -/
theorem Reads.scanAll_eq {cs left : List Char} {ts : List Token} (h : Reads cs ts left) :
    scanAll cs = (scanAll left).map (ts ++ ·) := by
  induction h with
  | done cs =>
    -- no tokens come before
    cases scanAll cs <;> rfl
  | @token blanks cs rest left t ts hblanks hfirst hrest ih =>
    have hscan := scan?_eq_some_iff.2 hfirst
    -- the blanks end where the token starts
    obtain ⟨c, ds, hds⟩ := List.exists_cons_of_ne_nil hfirst.form.ne_nil
    have hc : isBlank c = false := hfirst.form.isBlank_eq_false c (by simp [hds])
    obtain rfl : c :: (ds ++ rest) = cs := by rw [← hfirst.append, hds, List.cons_append]
    rw [scanAll_append_of_blank hblanks, scanAll_cons hc, hscan]
    dsimp only
    rw [ih]
    cases scanAll left <;> rfl

theorem Consists.scanAll_eq {cs : List Char} {ts : List Token} (h : Consists cs ts) : scanAll cs = .ok ts := by
  obtain ⟨left, hreads, hleft⟩ := h
  have hblank : scanAll left = .ok [] := by
    have hall := scanAll_append_of_blank hleft []
    rwa [List.append_nil, scanAll_nil] at hall
  rw [hreads.scanAll_eq, hblank]
  simp [Except.map]

theorem StuckAt.scanAll_eq {cs after : List Char} {c : Char} (h : StuckAt cs c after) :
    scanAll cs = .error (c :: after) := by
  obtain ⟨ts, blanks, hreads, hblanks⟩ := h.reads
  rw [hreads.scanAll_eq, scanAll_append_of_blank hblanks, scanAll_cons h.visible, scan?_eq_none_iff.2 h.noToken]
  rfl

/-- Every text consists of tokens or comes to a character where no token starts. -/
theorem consists_or_stuck (cs : List Char) : (∃ ts, Consists cs ts) ∨ ∃ c after, StuckAt cs c after := by
  -- the text is shorter behind every token
  induction hlength : cs.length using Nat.strongRecOn generalizing cs with
  | ind n ih =>
    have hblanks : ∀ c ∈ cs.takeWhile isBlank, isBlank c = true := List.all_eq_true.1 List.all_takeWhile
    have hsplit : cs.takeWhile isBlank ++ trimStart cs = cs := List.takeWhile_append_dropWhile
    cases htrim : trimStart cs with
    | nil =>
      rw [htrim, List.append_nil] at hsplit
      exact .inl ⟨[], cs, .done cs, hsplit ▸ hblanks⟩
    | cons c after =>
      rw [htrim] at hsplit
      have hvisible : isBlank c = false := by
        have hhead := List.head?_dropWhile_not isBlank cs
        rw [← trimStart, htrim] at hhead
        simpa using hhead
      cases hscan : scan? (c :: after) with
      | none =>
        refine .inr ⟨c, after, ⟨[], cs.takeWhile isBlank, ?_, hblanks⟩, hvisible, scan?_eq_none_iff.1 hscan⟩
        rw [hsplit]
        exact .done cs
      | some found =>
        obtain ⟨t, rest⟩ := found
        have hshorter : rest.length < n := by
          have hlt := length_scan_lt hscan
          rw [← hlength, ← hsplit, List.length_append]
          omega
        have hstep : ∀ {ts left}, Reads rest ts left → Reads cs (t :: ts) left := by
          intro ts left hreads
          rw [← hsplit]
          exact .token hblanks (scan?_eq_some_iff.1 hscan) hreads
        rcases ih _ hshorter rest rfl with ⟨ts, left, hreads, hleft⟩ | ⟨d, tail, hstuck⟩
        · exact .inl ⟨t :: ts, left, hstep hreads, hleft⟩
        · obtain ⟨ts, blanks, hreads, hbefore⟩ := hstuck.reads
          exact .inr ⟨d, tail, ⟨t :: ts, blanks, hstep hreads, hbefore⟩, hstuck.visible, hstuck.noToken⟩

/-! ### What the text says about its tokens -/

theorem Reads.hasForm {cs left : List Char} {ts : List Token} (h : Reads cs ts left) : ∀ t ∈ ts, t.HasForm := by
  induction h with
  | done => exact fun _ ht => absurd ht List.not_mem_nil
  | token _ hfirst _ ih => exact List.forall_mem_cons.2 ⟨hfirst.form, ih⟩

/-- Nothing but blanks is lost. -/
theorem Reads.filter_eq {cs left : List Char} {ts : List Token} (h : Reads cs ts left) :
    cs.filter (! isBlank ·) = ts.flatMap (·.text.toList) ++ left.filter (! isBlank ·) := by
  induction h with
  | done => rfl
  | @token blanks cs rest left t ts hblanks hfirst hrest ih =>
    have hnone : blanks.filter (! isBlank ·) = [] := List.filter_eq_nil_iff.2 fun c hc => by simp [hblanks c hc]
    have hall : t.text.toList.filter (! isBlank ·) = t.text.toList :=
      List.filter_eq_self.2 fun c hc => by simp [hfirst.form.isBlank_eq_false c hc]
    rw [← hfirst.append, List.filter_append, List.filter_append, hnone, hall, ih, List.nil_append,
      List.flatMap_cons, List.append_assoc]

theorem Consists.filter_eq {cs : List Char} {ts : List Token} (h : Consists cs ts) :
    cs.filter (! isBlank ·) = ts.flatMap (·.text.toList) := by
  obtain ⟨left, hreads, hleft⟩ := h
  have hnone : left.filter (! isBlank ·) = [] := List.filter_eq_nil_iff.2 fun c hc => by simp [hleft c hc]
  rw [hreads.filter_eq, hnone, List.append_nil]

/-! ### Blanks around tokens -/

theorem Consists.blanks_append {cs blanks : List Char} {ts : List Token} (h : Consists cs ts)
    (hblanks : ∀ c ∈ blanks, isBlank c = true) : Consists (blanks ++ cs) ts := by
  obtain ⟨left, hreads, hleft⟩ := h
  cases hreads with
  | done => exact ⟨blanks ++ cs, .done _, List.forall_mem_append.2 ⟨hblanks, hleft⟩⟩
  | @token before cs rest left t ts hbefore hfirst hrest =>
    rw [← List.append_assoc]
    exact ⟨left, .token (List.forall_mem_append.2 ⟨hblanks, hbefore⟩) hfirst hrest, hleft⟩

theorem isBlank_head {blanks : List Char} (hblanks : ∀ c ∈ blanks, isBlank c = true) :
    ∀ c ∈ blanks.head?, isBlank c = true :=
  fun c hc => hblanks c (List.mem_of_mem_head? hc)

theorem Reads.append_blanks {cs left blanks : List Char} {ts : List Token} (h : Reads cs ts left)
    (hblanks : ∀ c ∈ blanks, isBlank c = true) : Reads (cs ++ blanks) ts (left ++ blanks) := by
  induction h with
  | done => exact .done _
  | token hbefore hfirst _ ih =>
    rw [List.append_assoc]
    exact .token hbefore (hfirst.append_blanks (isBlank_head hblanks)) ih

theorem Consists.append_blanks {cs blanks : List Char} {ts : List Token} (h : Consists cs ts)
    (hblanks : ∀ c ∈ blanks, isBlank c = true) : Consists (cs ++ blanks) ts := by
  obtain ⟨left, hreads, hleft⟩ := h
  exact ⟨left ++ blanks, hreads.append_blanks hblanks, List.forall_mem_append.2 ⟨hleft, hblanks⟩⟩

theorem StuckAt.append_blanks {cs after blanks : List Char} {c : Char} (h : StuckAt cs c after)
    (hblanks : ∀ b ∈ blanks, isBlank b = true) : StuckAt (cs ++ blanks) c (after ++ blanks) := by
  obtain ⟨ts, before, hreads, hbefore⟩ := h.reads
  refine ⟨⟨ts, before, ?_, hbefore⟩, h.visible, fun t ht hprefix => ?_⟩
  · have hlonger := hreads.append_blanks hblanks
    rwa [List.append_assoc, List.cons_append] at hlonger
  · rw [← List.cons_append] at hprefix
    exact h.noToken t ht (prefix_of_blankFree ht.isBlank_eq_false (isBlank_head hblanks) hprefix)

/-- Tokens with a space between two of them are read again. -/
theorem consists_unwords {ts : List Token} (h : ∀ t ∈ ts, t.HasForm) :
    Consists (unwords (ts.map text)).toList ts := by
  induction ts with
  | nil => exact ⟨_, .done _, by simp [unwords]⟩
  | cons t ts ih =>
    obtain ⟨ht, hts⟩ := List.forall_mem_cons.1 h
    cases ts with
    | nil =>
      have hfirst : IsFirst (t.text.toList ++ []) t [] := ht.isFirst (isBlank_head (List.forall_mem_nil _))
      rw [List.append_nil] at hfirst
      exact ⟨[], .cons (by simpa [unwords] using hfirst) (.done []), List.forall_mem_nil _⟩
    | cons u us =>
      have hchars : (unwords ((t :: u :: us).map text)).toList =
          t.text.toList ++ ' ' :: (unwords ((u :: us).map text)).toList := by
        simp [unwords, String.intercalate_cons_cons]
      obtain ⟨left, hreads, hleft⟩ := (ih hts).blanks_append isBlank_of_mem_space
      have hhead := isBlank_head isBlank_of_mem_space
      have hfirst : IsFirst (t.text.toList ++ ' ' :: (unwords ((u :: us).map text)).toList) t _ := ht.isFirst hhead
      rw [hchars]
      exact ⟨left, .cons hfirst hreads, hleft⟩

end Token

/-! ## §4 Formulas -/

open Token

/-- The blanks at the end of a text. -/
theorem exists_trimEnd_append (cs : List Char) :
    ∃ blanks, cs = trimEnd cs ++ blanks ∧ ∀ c ∈ blanks, isBlank c = true := by
  refine ⟨(cs.reverse.takeWhile isBlank).reverse, ?_, ?_⟩
  · rw [trimEnd, ← List.reverse_append, List.takeWhile_append_dropWhile, List.reverse_reverse]
  · intro c hc
    exact List.all_eq_true.1 List.all_takeWhile c (List.mem_reverse.1 hc)

/-- A formula is cut into the tokens that it consists of, or the character is shown where no token starts. -/
theorem tokenize_cases (formula : String) :
    (∃ ts, Consists formula.toList ts ∧ tokenize formula = .ok ts) ∨
    ∃ c after, StuckAt formula.toList c after ∧
      tokenize formula = .error (.configuration (.formulaCharacter (String.singleton c) (trimRight formula))) := by
  -- the blanks at the end are cut off first, and they are no part of a token
  obtain ⟨blanks, hformula, hblanks⟩ := exists_trimEnd_append formula.toList
  have htrim : (trimRight formula).toList = trimEnd formula.toList := String.toList_ofList
  rcases consists_or_stuck (trimEnd formula.toList) with ⟨ts, hts⟩ | ⟨c, after, hstuck⟩
  · refine .inl ⟨ts, ?_, ?_⟩
    · rw [hformula]
      exact hts.append_blanks hblanks
    · simp only [tokenize, htrim, hts.scanAll_eq]
  · refine .inr ⟨c, after ++ blanks, ?_, ?_⟩
    · rw [hformula]
      exact hstuck.append_blanks hblanks
    · simp only [tokenize, htrim, hstuck.scanAll_eq]
      rw [String.singleton_eq_ofList]
      rfl

theorem tokenize_eq_ok_iff {formula : String} {ts : List Token} :
    tokenize formula = .ok ts ↔ Consists formula.toList ts := by
  rcases tokenize_cases formula with ⟨us, hus, htokens⟩ | ⟨c, after, hstuck, herror⟩
  · rw [htokens]
    constructor
    · intro h
      cases h
      exact hus
    · intro h
      rw [Except.ok.inj (hus.scanAll_eq.symm.trans h.scanAll_eq)]
  · rw [herror]
    constructor
    · nofun
    · intro h
      have hboth := hstuck.scanAll_eq.symm.trans h.scanAll_eq
      cases hboth

/-- A formula is cut into the tokens that it consists of. None of them is empty, together they are the formula
without its blanks, and with spaces between them they are cut into the same tokens again. Any other text is refused
as a mistake in the configuration, with the character at which no token starts. -/
theorem tokenize_spec (formula : String) :
    (∀ ts, tokenize formula = .ok ts ↔ Consists formula.toList ts) ∧
    (∀ ts, tokenize formula = .ok ts →
      (∀ t ∈ ts, t.text ≠ "" ∧ t.HasForm) ∧
      String.join (ts.map Token.text) = String.ofList (formula.toList.filter (! isBlank ·)) ∧
      tokenize (unwords (ts.map Token.text)) = .ok ts) ∧
    ((∀ ts, tokenize formula ≠ .ok ts) →
      ∃ c after, StuckAt formula.toList c after ∧
        tokenize formula = .error (.configuration (.formulaCharacter (String.singleton c) (trimRight formula)))) := by
  refine ⟨fun ts => tokenize_eq_ok_iff, fun ts hts => ?_, fun hnone => ?_⟩
  · have hconsists := tokenize_eq_ok_iff.1 hts
    obtain ⟨left, hreads, hleft⟩ := hconsists
    have hforms := hreads.hasForm
    refine ⟨fun t ht => ⟨?_, hforms t ht⟩, ?_, tokenize_eq_ok_iff.2 (consists_unwords hforms)⟩
    · intro hempty
      exact (hforms t ht).ne_nil (by rw [hempty]; rfl)
    · rw [← String.toList_inj, String.toList_join, String.toList_ofList, List.flatMap_map,
        Consists.filter_eq ⟨left, hreads, hleft⟩]
  · rcases tokenize_cases formula with ⟨ts, -, hts⟩ | hstuck
    · exact absurd hts (hnone ts)
    · exact hstuck

/-- A formula in which letters, points and signs stand where they could go on with the token before. -/
def tightFormula : String := "2.5e+x1<=-.5E-3"

/-- The tokens of this formula. -/
def tightTokens : List Token :=
  [.number "2.5", .word "e", .symbol .plus, .word "x1", .symbol .lessEq, .symbol .minus, .number ".5E-3"]

theorem tokenize_spec_tight :
    tokenize tightFormula = .ok tightTokens ∧
    Consists tightFormula.toList tightTokens ∧
    tokenize (unwords (tightTokens.map Token.text)) = .ok tightTokens ∧
    (∀ ts, tokenize "1 $ 2" ≠ .ok ts) ∧
    ∃ c after, StuckAt "1 $ 2".toList c after := by
  have htight : tokenize tightFormula = .ok tightTokens := Checked.eq_ok_of_toOption (by decide +kernel)
  have hstuck : (tokenize "1 $ 2").toOption = none := by decide +kernel
  have hnone : ∀ ts, tokenize "1 $ 2" ≠ .ok ts := by
    intro ts hts
    rw [hts] at hstuck
    cases hstuck
  obtain ⟨hiff, htokens, -⟩ := tokenize_spec tightFormula
  obtain ⟨c, after, hplace, -⟩ := (tokenize_spec "1 $ 2").2.2 hnone
  exact ⟨htight, (hiff tightTokens).1 htight, (htokens tightTokens htight).2.2, hnone, c, after, hplace⟩

end FuzzyInference.Formula
