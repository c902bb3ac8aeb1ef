import FuzzyInference.Formula.Token
import FuzzyInference.Proofs.Decimal.Written

/-!
# Tokens of written formulas

A word, a number or a sign is one token where it stands before a blank, a parenthesis or a comma: none of these
extends it. So a text that puts such characters between its parts is cut into the tokens of the parts. And what
is cut off a text as a word looks like one.

The plan of this module:

* one token before a character that ends it;
* all tokens of a text;
* what tokens look like.

## Main statements

* `Token.scan?_word`, `Token.scan?_chars`, `Token.scan?_symbol`: one token
* `Token.scanAll_space`, `Token.scanAll_of_scan?`: a text piece by piece
* `Token.WellFormed`, `Token.isName_of_scanWord?`: what tokens look like
-/

namespace FuzzyInference.Formula

open Text Decimal

/-! ## §1 One token -/

namespace Token

/-- Characters that extend no word, no number and no sign. -/
def enders : List Char := [' ', '(', ')', ',']

/-- A token ends here. -/
def Ends (rest : List Char) : Prop := ∀ c ∈ rest.head?, c ∈ enders

theorem ends_cons {c : Char} (hc : c ∈ enders) (rest : List Char) : Ends (c :: rest) := by
  simpa [Ends] using hc

theorem enders_spec : ∀ c ∈ enders,
    continuesWord c = false ∧ isDigit c = false ∧ c ≠ '.' ∧ c ≠ 'e' ∧ c ≠ 'E' ∧ c ≠ '=' :=
  List.all_iff_forall_prop.1 (by decide)

/-! ### The digits of numbers -/

/-- The digits of a number behind a point go on as far as possible. -/
theorem scanDecimal?_pointed {whole : List Char} (hwhole : ∀ c ∈ whole, isDigit c = true) (rest : List Char) :
    scanDecimal? (whole ++ '.' :: rest) =
      if whole ++ rest.takeWhile isDigit = [] then none
      else some (whole ++ '.' :: rest.takeWhile isDigit, rest.dropWhile isDigit) := by
  have hstop : ∀ c ∈ ('.' :: rest).head?, isDigit c = false := by
    intro c hc
    obtain rfl : '.' = c := by simpa using hc
    decide
  obtain ⟨htake, hdrop⟩ := takeWhile_append_of_stop hwhole hstop
  rw [scanDecimal?, htake, hdrop]
  cases whole with
  | nil => simp [List.isEmpty_iff]
  | cons d ds => simp

/-- Digits without a point. -/
theorem scanDecimal?_plain {whole rest : List Char} (hwhole : ∀ c ∈ whole, isDigit c = true)
    (hrest : ∀ c ∈ rest.head?, isDigit c = false ∧ c ≠ '.') :
    scanDecimal? (whole ++ rest) = if whole = [] then none else some (whole, rest) := by
  obtain ⟨htake, hdrop⟩ := takeWhile_append_of_stop hwhole fun c hc => (hrest c hc).1
  rw [scanDecimal?, htake, hdrop]
  split
  · exact absurd rfl (hrest '.' rfl).2
  · rfl
  · exact absurd rfl (hrest '.' rfl).2
  · rename_i hne _ _
    rw [if_neg hne]

/-! ### Words -/

/-- The characters of a word: a letter or an underscore, and characters that go on with a word. -/
structure IsName (cs : List Char) : Prop where
  starts : ∃ c ∈ cs.head?, startsWord c = true
  continues : ∀ c ∈ cs, continuesWord c = true

/-- The characters are those of a word. -/
def isName (cs : List Char) : Bool := cs.head?.any startsWord && cs.all continuesWord

theorem isName_iff {cs : List Char} : isName cs = true ↔ IsName cs := by
  rw [isName, Bool.and_eq_true, Option.any_eq_true, List.all_eq_true]
  exact ⟨fun h => ⟨h.1, h.2⟩, fun h => ⟨h.starts, h.continues⟩⟩

instance (cs : List Char) : Decidable (IsName cs) := decidable_of_iff _ isName_iff

theorem range_of_startsWord {c : Char} (h : startsWord c = true) : 65 ≤ c.toNat ∧ c.toNat ≤ 122 := by
  simp only [startsWord, Bool.or_eq_true, Bool.and_eq_true, decide_eq_true_eq, beq_iff_eq] at h
  rcases h with (⟨hlow, hhigh⟩ | ⟨hlow, hhigh⟩) | rfl
  · have hlow' : 'a'.toNat ≤ c.toNat := hlow
    have hhigh' : c.toNat ≤ 'z'.toNat := hhigh
    exact ⟨Nat.le_trans (by decide) hlow', hhigh'⟩
  · have hlow' : 'A'.toNat ≤ c.toNat := hlow
    have hhigh' : c.toNat ≤ 'Z'.toNat := hhigh
    exact ⟨hlow', Nat.le_trans hhigh' (by decide)⟩
  · decide

/-- No script has a digit among the characters that words start with. -/
theorem isDigit_of_startsWord {c : Char} (h : startsWord c = true) : isDigit c = false := by
  have hcodes : ∀ z ∈ zeroDigitCodes, z = 48 ∨ 1632 ≤ z := by decide
  obtain ⟨hlow, hhigh⟩ := range_of_startsWord h
  have hnone : zeroDigitCodes.find? (fun z => z ≤ c.toNat && c.toNat < z + 10) = none := by
    rw [List.find?_eq_none]
    intro z hz
    have hcode := hcodes z hz
    simp only [Bool.and_eq_true, decide_eq_true_eq]
    omega
  rw [isDigit, digit?, hnone]
  rfl

theorem continuesWord_of_startsWord {c : Char} (h : startsWord c = true) : continuesWord c = true := by
  simp [continuesWord, h]

theorem isBlank_of_continuesWord {c : Char} (h : continuesWord c = true) : isBlank c = false := by
  have hcodes : ∀ z ∈ blankCodes, z < 46 ∨ 122 < z := by decide
  have hrange : 46 ≤ c.toNat ∧ c.toNat ≤ 122 := by
    simp only [continuesWord, Bool.or_eq_true, Bool.and_eq_true, decide_eq_true_eq, beq_iff_eq] at h
    rcases h with (hstarts | ⟨hlow, hhigh⟩) | rfl
    · obtain ⟨hlow, hhigh⟩ := range_of_startsWord hstarts
      exact ⟨by omega, hhigh⟩
    · have hlow' : '0'.toNat ≤ c.toNat := hlow
      have hhigh' : c.toNat ≤ '9'.toNat := hhigh
      exact ⟨Nat.le_trans (by decide) hlow', Nat.le_trans hhigh' (by decide)⟩
    · decide
  rw [isBlank, List.contains_eq_mem, decide_eq_false_iff_not]
  intro hmem
  have hcode := hcodes _ hmem
  omega

theorem ne_point_of_startsWord {c : Char} (h : startsWord c = true) : c ≠ '.' := by
  rintro rfl
  cases h

/-- A name is one word. -/
theorem IsName.isWord {s : String} (h : IsName s.toList) : IsWord s := by
  refine ⟨?_, fun c hc => isBlank_of_continuesWord (h.continues c hc)⟩
  intro hnil
  obtain ⟨c, hc, -⟩ := h.starts
  simp [hnil] at hc

/-- No number starts here. -/
theorem scanNumber?_eq_none {c : Char} (hdigit : isDigit c = false) (hpoint : c ≠ '.') (rest : List Char) :
    scanNumber? (c :: rest) = none := by
  have hstop : ∀ d ∈ (c :: rest).head?, isDigit d = false ∧ d ≠ '.' := by
    intro d hd
    obtain rfl : c = d := by simpa using hd
    exact ⟨hdigit, hpoint⟩
  have hdecimal := scanDecimal?_plain (List.forall_mem_nil _) hstop
  rw [List.nil_append, if_pos rfl] at hdecimal
  rw [scanNumber?, hdecimal]
  rfl

/-- A word is scanned up to where it ends. -/
theorem scan?_word {cs rest : List Char} (h : IsName cs) (hrest : Ends rest) :
    scan? (cs ++ rest) = some (word (String.ofList cs), rest) := by
  obtain ⟨c, hhead, hc⟩ := h.starts
  obtain ⟨ds, rfl⟩ := List.head?_eq_some_iff.1 hhead
  obtain ⟨htake, hdrop⟩ := takeWhile_append_of_stop (fun d hd => h.continues d (List.mem_cons_of_mem _ hd))
    (fun d hd => (enders_spec d (hrest d hd)).1)
  -- numbers are looked for before words
  rw [List.cons_append, scan?, scanNumber?_eq_none (isDigit_of_startsWord hc) (ne_point_of_startsWord hc)]
  simp only [scanWord?, if_pos hc, htake, hdrop]

/-! ### Numbers -/

theorem isDigit_of_isBasicDigit {c : Char} (h : isBasicDigit c = true) : isDigit c = true := by
  rw [isDigit, digit?_of_isBasicDigit h]
  rfl

theorem stops_of_ends {rest : List Char} (h : Ends rest) : ∀ c ∈ rest.head?, isDigit c = false :=
  fun c hc => (enders_spec c (h c hc)).2.1

/-- Nothing that ends a token starts an exponent. -/
theorem scanExponent_of_ends {rest : List Char} (h : Ends rest) : scanExponent rest = ([], rest) := by
  cases rest with
  | nil => rfl
  | cons c rest =>
    obtain ⟨-, -, -, he, hE, -⟩ := enders_spec c (h c rfl)
    simp [scanExponent, he, hE]

/-- A written exponent is scanned up to where it ends. -/
theorem scanExponent_exponentPart (n : Numeral) {rest : List Char} (hrest : Ends rest) :
    scanExponent (n.exponentPart ++ rest) = (n.exponentPart, rest) := by
  unfold Numeral.exponentPart
  split
  · exact scanExponent_of_ends hrest
  · rename_i x _
    obtain ⟨ds, hds, -, hpart⟩ := Layout.exists_digits_exponentPart x
    obtain ⟨htake, hdrop⟩ := takeWhile_append_of_stop (fun c hc => isDigit_of_isBasicDigit (hds.basic c hc))
      (stops_of_ends hrest)
    rw [hpart]
    split <;> simp [scanExponent, scanSign, htake, hdrop, hds.ne_nil]

/-- What follows the digits of a written number is no digit and no point. -/
theorem head_of_exponentPart (n : Numeral) {rest : List Char} (hrest : Ends rest) :
    ∀ c ∈ (n.exponentPart ++ rest).head?, isDigit c = false ∧ c ≠ '.' := by
  unfold Numeral.exponentPart
  cases n.exponent with
  | none => exact fun c hc => ⟨(enders_spec c (hrest c hc)).2.1, (enders_spec c (hrest c hc)).2.2.1⟩
  | some x =>
    intro c hc
    cases hc
    exact ⟨by decide, by decide⟩

/-- Whole digits and those behind a point are scanned up to the exponent. -/
theorem scanDecimal?_append (n : Numeral) {rest : List Char} (hrest : Ends rest) :
    scanDecimal? (n.chars ++ rest) = some (n.whole ++ n.pointPart, n.exponentPart ++ rest) := by
  have hdigits : ∀ c ∈ n.whole, isDigit c = true :=
    fun c hc => isDigit_of_isBasicDigit (n.whole_isDigits.basic c hc)
  have hhead := head_of_exponentPart n hrest
  rw [Numeral.chars, List.append_assoc, List.append_assoc]
  generalize n.exponentPart ++ rest = tail at hhead ⊢
  by_cases hnil : n.fraction = []
  · have hpoint : n.pointPart = [] := by simp [Numeral.pointPart, hnil]
    rw [hpoint, List.nil_append, List.append_nil, scanDecimal?_plain hdigits hhead, if_neg n.whole_isDigits.ne_nil]
  · have hpoint : n.pointPart = '.' :: n.fraction := by simp [Numeral.pointPart, hnil]
    obtain ⟨htake, hdrop⟩ := takeWhile_append_of_stop
      (fun c hc => isDigit_of_isBasicDigit (n.fraction_basic c hc)) fun c hc => (hhead c hc).1
    rw [hpoint, List.cons_append, scanDecimal?_pointed hdigits, htake, hdrop, if_neg (by simp [hnil])]

/-- A written number is scanned up to where it ends. -/
theorem scan?_chars (n : Numeral) {rest : List Char} (hrest : Ends rest) :
    scan? (n.chars ++ rest) = some (number (String.ofList n.chars), rest) := by
  simp only [scan?, scanNumber?, scanDecimal?_append n hrest, Option.map_some, scanExponent_exponentPart n hrest]
  rw [Numeral.chars, List.append_assoc]

/-! ### Signs -/

/-- The characters that signs start with start no word and no number. -/
theorem chars_spec (s : Symbol) : ∃ c cs, s.chars = c :: cs ∧ isDigit c = false ∧ c ≠ '.' ∧
    startsWord c = false ∧ isBlank c = false := by
  cases s <;> exact ⟨_, _, rfl, by decide, by decide, by decide, by decide⟩

/-- Signs that nothing extends. -/
def brackets : List Symbol := [.opening, .closing, .comma]

/-- Nothing that starts with a sign starts with a number or a word. -/
theorem scan?_of_symbol {s u : Symbol} {rest after : List Char}
    (h : Symbol.scan? (s.chars ++ rest) = some (u, after)) : scan? (s.chars ++ rest) = some (symbol u, after) := by
  obtain ⟨c, cs, hcs, hdigit, hpoint, hword, -⟩ := chars_spec s
  rw [hcs, List.cons_append] at h ⊢
  rw [scan?, scanNumber?_eq_none hdigit hpoint]
  simp only [scanWord?, hword, Bool.false_eq_true, if_false, h]
  rfl

/-- A sign is scanned, unless an equality sign may follow that would be a part of it. -/
theorem scan?_symbol {s : Symbol} {rest : List Char} (h : s ∈ brackets ∨ rest.head? ≠ some '=') :
    scan? (s.chars ++ rest) = some (symbol s, rest) := by
  have hsymbol : Symbol.scan? (s.chars ++ rest) = some (s, rest) := by
    rcases h with hbracket | hrest
    · simp only [brackets, List.mem_cons, List.not_mem_nil, or_false] at hbracket
      rcases hbracket with rfl | rfl | rfl <;> rfl
    · cases rest with
      | nil => cases s <;> rfl
      | cons d rest =>
        have hd : d ≠ '=' := by simpa using hrest
        cases s <;> simp [Symbol.chars, Symbol.scan?, hd]
  exact scan?_of_symbol hsymbol

/-! ## §2 All tokens of a text -/

/-- The tokens of a text, without the proof that the rest is shorter. -/
theorem scanAll_eq (cs : List Char) : scanAll cs =
    match trimStart cs with
    | [] => .ok []
    | c :: after =>
      match scan? (c :: after) with
      | none => .error (c :: after)
      | some (t, rest) => (scanAll rest).map (t :: ·) := by
  rw [scanAll]
  split
  · rename_i htrim
    rw [htrim]
  · rename_i c after htrim
    rw [htrim]
    dsimp only
    split
    · rename_i hscan
      rw [hscan]
    · rename_i t rest hscan
      rw [hscan]

theorem scanAll_nil : scanAll [] = .ok [] := by
  rw [scanAll_eq]
  rfl

/-- Blanks before a token mean nothing. -/
theorem scanAll_append_of_blank {blanks : List Char} (hblanks : ∀ c ∈ blanks, isBlank c = true) (cs : List Char) :
    scanAll (blanks ++ cs) = scanAll cs := by
  have htrim : trimStart (blanks ++ cs) = trimStart cs := List.dropWhile_append_of_pos hblanks
  rw [scanAll_eq, htrim, ← scanAll_eq]

theorem isBlank_of_mem_space : ∀ c ∈ [' '], isBlank c = true := List.forall_mem_singleton.2 (by decide)

theorem scanAll_space (cs : List Char) : scanAll (' ' :: cs) = scanAll cs :=
  scanAll_append_of_blank isBlank_of_mem_space cs

/-- A text that is not blank at its start is scanned there, and then the rest. -/
theorem scanAll_cons {c : Char} (hc : isBlank c = false) (cs : List Char) : scanAll (c :: cs) =
    match scan? (c :: cs) with
    | none => .error (c :: cs)
    | some (t, rest) => (scanAll rest).map (t :: ·) := by
  have htrim : trimStart (c :: cs) = c :: cs := List.dropWhile_cons_of_neg (by simp [hc])
  rw [scanAll_eq, htrim]

/-- The first token of a text, and the tokens of the rest. -/
theorem scanAll_of_scan? {c : Char} {cs rest : List Char} {t : Token} {ts : List Token}
    (hc : isBlank c = false) (h : scan? (c :: cs) = some (t, rest)) (hts : scanAll rest = .ok ts) :
    scanAll (c :: cs) = .ok (t :: ts) := by
  rw [scanAll_cons hc, h]
  simp only [hts]
  rfl

theorem scanAll_word {cs rest : List Char} {ts : List Token} (h : IsName cs) (hrest : Ends rest)
    (hts : scanAll rest = .ok ts) : scanAll (cs ++ rest) = .ok (word (String.ofList cs) :: ts) := by
  have hscan := scan?_word h hrest
  obtain ⟨c, hhead, hc⟩ := h.starts
  obtain ⟨ds, rfl⟩ := List.head?_eq_some_iff.1 hhead
  exact scanAll_of_scan? (isBlank_of_continuesWord (continuesWord_of_startsWord hc)) hscan hts

theorem scanAll_chars (n : Numeral) {rest : List Char} {ts : List Token} (hrest : Ends rest)
    (hts : scanAll rest = .ok ts) : scanAll (n.chars ++ rest) = .ok (number (String.ofList n.chars) :: ts) := by
  have hscan := scan?_chars n hrest
  obtain ⟨d, hd, cs, hcs⟩ := n.exists_head
  have hblank : ∀ c ∈ basicDigits, isBlank c = false := List.all_iff_forall_prop.1 (by decide)
  rw [hcs] at hscan ⊢
  exact scanAll_of_scan? (hblank d hd) hscan hts

theorem scanAll_symbol {s : Symbol} {rest : List Char} {ts : List Token}
    (h : s ∈ brackets ∨ rest.head? ≠ some '=') (hts : scanAll rest = .ok ts) :
    scanAll (s.chars ++ rest) = .ok (symbol s :: ts) := by
  obtain ⟨c, cs, hcs, -, -, -, hblank⟩ := chars_spec s
  have hscan := scan?_symbol h
  rw [hcs, List.cons_append] at hscan ⊢
  exact scanAll_of_scan? hblank hscan hts

theorem scanAll_opening {rest : List Char} {ts : List Token} (hts : scanAll rest = .ok ts) :
    scanAll ('(' :: rest) = .ok (symbol .opening :: ts) :=
  scanAll_symbol (s := .opening) (.inl (by decide)) hts

theorem scanAll_closing {rest : List Char} {ts : List Token} (hts : scanAll rest = .ok ts) :
    scanAll (')' :: rest) = .ok (symbol .closing :: ts) :=
  scanAll_symbol (s := .closing) (.inl (by decide)) hts

theorem scanAll_comma {rest : List Char} {ts : List Token} (hts : scanAll rest = .ok ts) :
    scanAll (',' :: rest) = .ok (symbol .comma :: ts) :=
  scanAll_symbol (s := .comma) (.inl (by decide)) hts

/-! ## §3 What tokens look like -/

/-- A word has the characters of a name, and a number starts with a digit or a point. -/
def WellFormed : Token → Prop
  | word s => IsName s.toList
  | number s => ∃ c ∈ s.toList.head?, isDigit c = true ∨ c = '.'
  | symbol _ => True

theorem isName_of_scanWord? {cs lexeme rest : List Char} (h : scanWord? cs = some (lexeme, rest)) :
    IsName lexeme := by
  unfold scanWord? at h
  split at h
  · cases h
  · rename_i c ds
    split at h
    · rename_i hc
      cases h
      have hall : ∀ d ∈ ds.takeWhile continuesWord, continuesWord d = true := List.all_eq_true.1 List.all_takeWhile
      exact ⟨⟨c, rfl, hc⟩, List.forall_mem_cons.2 ⟨continuesWord_of_startsWord hc, hall⟩⟩
    · cases h

end Token

end FuzzyInference.Formula
