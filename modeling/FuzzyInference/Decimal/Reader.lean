import FuzzyInference.Decimal.Binary
import FuzzyInference.Decimal.Whole
import FuzzyInference.Text.Blank
import FuzzyInference.Text.Digit

/-!
# Reading numbers

A number is written with an optional sign, digits with at most one point among them, and an optional
exponent, or as `inf`, `infinity` or `nan` in letters of either case. Blanks other than the separators
`U+001C` to `U+001F` may surround it, single underscores may stand between digits, and digits of every
script count. The value is the nearest floating-point number.

## Main definitions

* `readFloat?`: the number that a text denotes
* `readInt?`: the whole number that a text of digits denotes
-/

namespace FuzzyInference.Decimal

open FuzzyInference.Text

/-- Digits of every script become the ten basic ones. -/
def basicDigit (c : Char) : Char :=
  match digit? c with
  | some d => Char.ofNat (0x30 + d)
  | none => c

/-- One of the ten basic digits. -/
def isBasicDigit (c : Char) : Bool := '0' ≤ c && c ≤ '9'

/-- Drops the underscores, each of which must stand between two digits. The first argument says whether the
character before was a digit. -/
def dropUnderscores? : Bool → List Char → Option (List Char)
  | _, [] => some []
  | afterDigit, '_' :: rest =>
    match rest with
    | d :: _ => if afterDigit && isBasicDigit d then dropUnderscores? false rest else none
    | [] => none
  | _, c :: rest => (dropUnderscores? (isBasicDigit c) rest).map (c :: ·)

/-- The sign of a number, and what follows it. -/
def takeSign : List Char → Bool × List Char
  | '-' :: rest => (true, rest)
  | '+' :: rest => (false, rest)
  | cs => (false, cs)

/-- The exponent that follows the digits of a number; the whole rest must belong to it. -/
def exponent? : List Char → Option Int
  | [] => some 0
  | c :: rest =>
    if c = 'e' || c = 'E' then
      let (negative, digits) := takeSign rest
      if digits.isEmpty || !digits.all isBasicDigit then none
      else
        let n : Int := valueOfDigits digits
        some (if negative then -n else n)
    else none

/-- An unsigned number: the digits before the point, those after it, and the exponent. -/
def numeral? (cs : List Char) : Option (Nat × Int) :=
  let whole := cs.takeWhile isBasicDigit
  let rest := cs.dropWhile isBasicDigit
  let (fraction, rest) := match rest with
    | '.' :: rest => (rest.takeWhile isBasicDigit, rest.dropWhile isBasicDigit)
    | rest => ([], rest)
  if whole.isEmpty && fraction.isEmpty then none
  else (exponent? rest).map fun e => (valueOfDigits (whole ++ fraction), e - fraction.length)

/-- An unsigned number or the name of one. -/
def magnitude? (negative : Bool) (cs : List Char) : Option Float :=
  let lower := String.ofList (cs.map Char.toLower)
  if lower = "inf" || lower = "infinity" then some (floatOfBits negative infinityBits)
  else if lower = "nan" then some (0.0 / 0.0)
  else (numeral? cs).map fun (digits, e) => nearestDecimal negative digits e

/-- The character may surround a number. -/
def surroundsNumber (c : Char) : Bool := isBlank c && !(0x1C ≤ c.toNat && c.toNat ≤ 0x1F)

/-- The characters of a number without those that surround it, in basic digits. -/
def numberChars (s : String) : List Char :=
  ((s.toList.dropWhile surroundsNumber).reverse.dropWhile surroundsNumber).reverse.map basicDigit

/-- The number that a text denotes. -/
def readFloat? (s : String) : Option Float :=
  match dropUnderscores? false (numberChars s) with
  | none => none
  | some cs =>
    let (negative, rest) := takeSign cs
    magnitude? negative rest

/-- The whole number that a text of digits denotes. -/
def readInt? (s : String) : Option Int :=
  match dropUnderscores? false (numberChars s) with
  | none => none
  | some cs =>
    let (negative, digits) := takeSign cs
    if digits.isEmpty || !digits.all isBasicDigit || digitLimit < digits.length then none
    else
      let n : Int := valueOfDigits digits
      some (if negative then -n else n)

end FuzzyInference.Decimal
