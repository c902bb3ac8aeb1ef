import FuzzyInference.Error
import FuzzyInference.Text.Blank
import FuzzyInference.Text.Digit

/-!
# Tokens of formulas

A formula is cut into numbers, words and symbols; blanks separate tokens where needed and mean nothing
otherwise. Every token is as long as possible. A number starts with a digit of any script, or with a point
before one; a word starts with a basic letter or an underscore and goes on with these, basic digits and
points.

## Main statements

* `Token.scan_append`: a scanned token and the rest make up the text
* `Token.length_scan_lt`: a scanned token is not empty
-/

namespace FuzzyInference.Formula

open FuzzyInference.Text

/-- The signs that are tokens. -/
inductive Symbol
  | lessEq | greaterEq | equal | notEqual
  | minus | plus | star | slash | percent | caret | less | greater | bang | tilde
  | opening | closing | comma
deriving DecidableEq, Repr

namespace Symbol

def chars : Symbol → List Char
  | lessEq => ['<', '=']
  | greaterEq => ['>', '=']
  | equal => ['=', '=']
  | notEqual => ['!', '=']
  | minus => ['-']
  | plus => ['+']
  | star => ['*']
  | slash => ['/']
  | percent => ['%']
  | caret => ['^']
  | less => ['<']
  | greater => ['>']
  | bang => ['!']
  | tilde => ['~']
  | opening => ['(']
  | closing => [')']
  | comma => [',']

/-- The symbol at the start of a text, the longer one of two, and the rest. -/
def scan? : List Char → Option (Symbol × List Char)
  | '<' :: '=' :: rest => some (lessEq, rest)
  | '>' :: '=' :: rest => some (greaterEq, rest)
  | '=' :: '=' :: rest => some (equal, rest)
  | '!' :: '=' :: rest => some (notEqual, rest)
  | '-' :: rest => some (minus, rest)
  | '+' :: rest => some (plus, rest)
  | '*' :: rest => some (star, rest)
  | '/' :: rest => some (slash, rest)
  | '%' :: rest => some (percent, rest)
  | '^' :: rest => some (caret, rest)
  | '<' :: rest => some (less, rest)
  | '>' :: rest => some (greater, rest)
  | '!' :: rest => some (bang, rest)
  | '~' :: rest => some (tilde, rest)
  | '(' :: rest => some (opening, rest)
  | ')' :: rest => some (closing, rest)
  | ',' :: rest => some (comma, rest)
  | _ => none

theorem scan_append {cs rest : List Char} {s : Symbol} (h : scan? cs = some (s, rest)) :
    s.chars ++ rest = cs := by
  unfold scan? at h
  split at h <;> simp_all [chars] <;> obtain ⟨rfl, rfl⟩ := h <;> simp

end Symbol

/-- The tokens of a formula. -/
inductive Token
  /-- A number, as written. -/
  | number (text : String)
  /-- A name or a word operator. -/
  | word (text : String)
  /-- A sign. -/
  | symbol (s : Symbol)
deriving DecidableEq, Repr

namespace Token

/-- The token as written. -/
def text : Token → String
  | number text | word text => text
  | symbol s => String.ofList s.chars

/-! ## §1 Scanning one token -/

/-- A basic letter or an underscore. -/
def startsWord (c : Char) : Bool :=
  ('a' ≤ c && c ≤ 'z') || ('A' ≤ c && c ≤ 'Z') || c == '_'

/-- A basic letter or digit, an underscore or a point. -/
def continuesWord (c : Char) : Bool := startsWord c || ('0' ≤ c && c ≤ '9') || c == '.'

/-- The sign at the start of a text, if there is one, and the rest. -/
def scanSign : List Char → List Char × List Char
  | '+' :: rest => (['+'], rest)
  | '-' :: rest => (['-'], rest)
  | cs => ([], cs)

theorem scanSign_append (cs : List Char) : (scanSign cs).1 ++ (scanSign cs).2 = cs := by
  unfold scanSign
  split <;> rfl

/-- The exponent at the start of a text, which is empty unless a digit follows the letter and the sign, and
the rest. -/
def scanExponent : List Char → List Char × List Char
  | [] => ([], [])
  | c :: rest =>
    let digits := (scanSign rest).2
    if (c = 'e' || c = 'E') && !(digits.takeWhile isDigit).isEmpty then
      (c :: (scanSign rest).1 ++ digits.takeWhile isDigit, digits.dropWhile isDigit)
    else ([], c :: rest)

theorem scanExponent_append (cs : List Char) : (scanExponent cs).1 ++ (scanExponent cs).2 = cs := by
  cases cs with
  | nil => rfl
  | cons c rest =>
    simp only [scanExponent]
    split
    · simp [List.takeWhile_append_dropWhile, scanSign_append]
    · rfl

/-- The digits of a number before its exponent, and the rest. -/
def scanDecimal? (cs : List Char) : Option (List Char × List Char) :=
  match cs.takeWhile isDigit, cs.dropWhile isDigit with
  | [], '.' :: rest =>
    if (rest.takeWhile isDigit).isEmpty then none
    else some ('.' :: rest.takeWhile isDigit, rest.dropWhile isDigit)
  | [], _ => none
  | whole, '.' :: rest => some (whole ++ '.' :: rest.takeWhile isDigit, rest.dropWhile isDigit)
  | whole, rest => some (whole, rest)

theorem scanDecimal_append {cs lexeme rest : List Char} (h : scanDecimal? cs = some (lexeme, rest)) :
    lexeme ++ rest = cs ∧ lexeme ≠ [] := by
  have hcs : cs.takeWhile isDigit ++ cs.dropWhile isDigit = cs := List.takeWhile_append_dropWhile
  unfold scanDecimal? at h
  cases hw : cs.takeWhile isDigit with
  | nil =>
    rw [hw] at h hcs
    split at h
    · rename_i r _ hr
      split at h
      · simp at h
      · simp only [Option.some.injEq, Prod.mk.injEq] at h
        obtain ⟨rfl, rfl⟩ := h
        rw [hr] at hcs
        exact ⟨by simpa [List.takeWhile_append_dropWhile] using hcs, by simp⟩
    · simp at h
    · simp_all
    · simp_all
  | cons d ds =>
    rw [hw] at h hcs
    split at h
    · simp_all
    · simp_all
    · rename_i r _ hr _
      simp only [Option.some.injEq, Prod.mk.injEq] at h
      obtain ⟨rfl, rfl⟩ := h
      rw [hr] at hcs
      exact ⟨by simpa [List.takeWhile_append_dropWhile] using hcs, by simp⟩
    · simp only [Option.some.injEq, Prod.mk.injEq] at h
      obtain ⟨rfl, rfl⟩ := h
      exact ⟨hcs, by simp⟩

/-- The number at the start of a text, and the rest. -/
def scanNumber? (cs : List Char) : Option (List Char × List Char) :=
  (scanDecimal? cs).map fun (lexeme, rest) =>
    (lexeme ++ (scanExponent rest).1, (scanExponent rest).2)

/-- The word at the start of a text, and the rest. -/
def scanWord? : List Char → Option (List Char × List Char)
  | [] => none
  | c :: rest =>
    if startsWord c then some (c :: rest.takeWhile continuesWord, rest.dropWhile continuesWord)
    else none

/-- The token at the start of a text without leading blanks, and the rest. -/
def scan? (cs : List Char) : Option (Token × List Char) :=
  match scanNumber? cs with
  | some (lexeme, rest) => some (number (String.ofList lexeme), rest)
  | none =>
    match scanWord? cs with
    | some (lexeme, rest) => some (word (String.ofList lexeme), rest)
    | none => (Symbol.scan? cs).map fun (s, rest) => (symbol s, rest)

/-- A scanned token is not empty, and with the rest it makes up the text. -/
theorem scan_append {cs rest : List Char} {t : Token} (h : scan? cs = some (t, rest)) :
    t.text.toList ++ rest = cs ∧ t.text.toList ≠ [] := by
  unfold scan? at h
  split at h
  · rename_i lexeme r hn
    simp only [Option.some.injEq, Prod.mk.injEq] at h
    obtain ⟨rfl, rfl⟩ := h
    unfold scanNumber? at hn
    obtain ⟨⟨digits, after⟩, hd, he⟩ := Option.map_eq_some_iff.1 hn
    simp only [Prod.mk.injEq] at he
    obtain ⟨rfl, rfl⟩ := he
    obtain ⟨happ, hne⟩ := scanDecimal_append hd
    simp [text, ← happ, scanExponent_append, hne]
  · split at h
    · rename_i lexeme r hw
      simp only [Option.some.injEq, Prod.mk.injEq] at h
      obtain ⟨rfl, rfl⟩ := h
      unfold scanWord? at hw
      split at hw
      · simp at hw
      · split at hw
        · simp only [Option.some.injEq, Prod.mk.injEq] at hw
          obtain ⟨rfl, rfl⟩ := hw
          simp [text, List.takeWhile_append_dropWhile]
        · simp at hw
    · obtain ⟨⟨s, r⟩, hs, he⟩ := Option.map_eq_some_iff.1 h
      simp only [Prod.mk.injEq] at he
      obtain ⟨rfl, rfl⟩ := he
      refine ⟨by simpa [text] using Symbol.scan_append hs, ?_⟩
      cases s <;> simp [text, Symbol.chars]

theorem length_scan_lt {cs rest : List Char} {t : Token} (h : scan? cs = some (t, rest)) :
    rest.length < cs.length := by
  obtain ⟨happ, hne⟩ := scan_append h
  have : 0 < t.text.toList.length := List.length_pos_iff.2 hne
  rw [← happ, List.length_append]
  omega

/-! ## §2 All tokens of a formula -/

/-- The tokens of a text, or what is left of it where no token starts. -/
def scanAll (cs : List Char) : Except (List Char) (List Token) :=
  match _hcs : trimStart cs with
  | [] => .ok []
  | c :: after =>
    match _h : scan? (c :: after) with
    | none => .error (c :: after)
    | some (t, rest) => (scanAll rest).map (t :: ·)
termination_by cs.length
decreasing_by
  have h1 := length_scan_lt _h
  have h2 : (trimStart cs).length ≤ cs.length := length_dropWhile_le _ _
  rw [_hcs] at h2
  omega

end Token

/-- The tokens of a formula. The blanks at its end do not belong to the formula that an error shows. -/
def tokenize (formula : String) : Except Error (List Token) :=
  let formula := trimRight formula
  match Token.scanAll formula.toList with
  | .ok tokens => .ok tokens
  | .error rest =>
    .error (.configuration (.formulaCharacter (String.ofList (rest.take 1)) formula))

end FuzzyInference.Formula
