import FuzzyInference.Decimal.Reader
import FuzzyInference.Document.Value
import FuzzyInference.Document.Toml.Text

/-!
# Numbers in TOML documents

Whole numbers are decimal, with an optional sign, or have the mark of another base. A fraction or an
exponent makes a number a floating-point one. Single underscores may stand between digits, and a number
starts with no zero but that of a number below ten. Decimal whole numbers of too many digits are refused,
but those of other bases and floating-point numbers may have any length.

## Main definitions

* `expected`: what a document must have here
* `number`: the number that starts here
-/

namespace FuzzyInference.Toml

open FuzzyInference.Decimal

/-! ## §1 Expectations -/

/-- What the format expects; a document without it is malformed. -/
def expected {α : Type} : Option α → Except Error α
  | some x => .ok x
  | none => .error .malformedDocument

/-! ## §2 Digits -/

/-- Digits with single underscores between them, after a first digit, and what follows them. -/
def moreDigits (isDigit : Char → Bool) : List Char → List Char × List Char
  | [] => ([], [])
  | [c] => if isDigit c then ([c], []) else ([], [c])
  | c :: d :: rest =>
    if isDigit c then
      let (digits, rest) := moreDigits isDigit (d :: rest)
      (c :: digits, rest)
    else if c = '_' && isDigit d then
      let (digits, rest) := moreDigits isDigit rest
      (d :: digits, rest)
    else ([], c :: d :: rest)

/-- Digits that start here, and what follows them. -/
def digits? (isDigit : Char → Bool) : List Char → Option (List Char × List Char)
  | [] => none
  | c :: rest =>
    if isDigit c then
      let (digits, rest) := moreDigits isDigit rest
      some (c :: digits, rest)
    else none

/-- The number that digits denote in a base. -/
def valueInBase (base : Nat) (digits : List Char) : Nat :=
  digits.foldl (fun n c => base * n + (hexDigit? c).getD 0) 0

/-- A digit of a base up to sixteen. -/
def isDigitOf (base : Nat) (c : Char) : Bool := ((hexDigit? c).map fun d => decide (d < base)).getD false

/-- The bases that are marked, with their letters. -/
def baseOf? : Char → Option Nat
  | 'x' => some 16
  | 'o' => some 8
  | 'b' => some 2
  | _ => none

/-! ## §3 Numbers -/

/-- A number with the mark of its base. -/
def based? : List Char → Option (Value × List Char)
  | '0' :: mark :: rest => do
    let base ← baseOf? mark
    let (digits, rest) ← digits? (isDigitOf base) rest
    return (.int (valueInBase base digits), rest)
  | _ => none

/-- The digits before the point: zero, or digits that do not start with one. -/
def wholeDigits? : List Char → Option (List Char × List Char)
  | '0' :: rest => some (['0'], rest)
  | cs => digits? isBasicDigit cs

/-- The digits after the point, if there is one before a digit. -/
def fractionDigits (cs : List Char) : List Char × List Char :=
  match cs with
  | '.' :: rest => (digits? isBasicDigit rest).getD ([], cs)
  | cs => ([], cs)

/-- The exponent, if there is one. -/
def exponentOf (cs : List Char) : Option Int × List Char :=
  match cs with
  | c :: rest =>
    if c = 'e' || c = 'E' then
      let (negative, rest) := takeSign rest
      match digits? isBasicDigit rest with
      | some (digits, rest) =>
        let n : Int := valueInBase 10 digits
        (some (if negative then -n else n), rest)
      | none => (none, cs)
    else (none, cs)
  | [] => (none, cs)

/-- The whole number of a sign and digits, unless there are too many digits. -/
def wholeNumber (negative : Bool) (digits : List Char) : Except Fault Value :=
  if digitLimit < digits.length then .error .digits
  else
    let n : Int := valueInBase 10 digits
    .ok (.int (if negative then -n else n))

/-- A decimal number. -/
def decimal? (cs : List Char) : Option (Except Fault Value × List Char) := do
  let (negative, unsigned) := takeSign cs
  let (whole, rest) ← wholeDigits? unsigned
  let (fraction, rest) := fractionDigits rest
  let (exponent, rest) := exponentOf rest
  if fraction.isEmpty && exponent.isNone then return (wholeNumber negative whole, rest)
  else
    let n := valueInBase 10 (whole ++ fraction)
    return (.ok (.float (nearestDecimal negative n (exponent.getD 0 - fraction.length))), rest)

/-- An infinity or `nan`, with an optional sign. -/
def special? (cs : List Char) : Option (Value × List Char) :=
  let (negative, unsigned) := takeSign cs
  match after? ['i', 'n', 'f'] unsigned with
  | some rest => some (.float (floatOfBits negative infinityBits), rest)
  | none => (after? ['n', 'a', 'n'] unsigned).map fun rest => (.float (0.0 / 0.0), rest)

/-- A number. -/
def number (cs : List Char) : Except Error (Value × List Char) :=
  match based? cs <|> special? cs with
  | some reading => .ok reading
  | none => do
    let (v, rest) ← expected (decimal? cs)
    return (← v, rest)

end FuzzyInference.Toml
