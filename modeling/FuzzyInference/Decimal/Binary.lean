import FuzzyInference.Decimal.Rounding

/-!
# Floating-point numbers as fractions

A 64-bit floating-point number is a sign and a natural number times a power of two, an infinity or `nan`.
Texts are written from this form in exact arithmetic, and numbers are read and cut to whole ones through
it.

## Main definitions

* `Binary.ofFloat`: the sign, significand and exponent of a number
* `nearestFloat`: the floating-point number nearest to a fraction
-/

namespace FuzzyInference.Decimal

/-- The content of a floating-point number. -/
inductive Binary
  /-- Not a number. -/
  | nan
  /-- An infinity. -/
  | infinite (negative : Bool)
  /-- The number `± significand · 2 ^ exponent`. -/
  | finite (negative : Bool) (significand : Nat) (exponent : Int)
deriving DecidableEq, Repr

namespace Binary

/-- Takes a number apart. -/
def ofFloat (x : Float) : Binary :=
  let bits : Nat := x.toBits.toNat
  let negative := decide (twoTo 63 ≤ bits)
  let exponent : Nat := bits / twoTo 52 % twoTo 11
  let fraction : Nat := bits % twoTo 52
  if exponent = 2047 then (if fraction = 0 then .infinite negative else .nan)
  else if exponent = 0 then .finite negative fraction (-1074)
  else .finite negative (twoTo 52 + fraction) ((exponent : Int) - 1075)

end Binary

/-- The magnitude `significand · 2 ^ exponent` as a fraction. -/
def fractionOf (significand : Nat) (exponent : Int) : Nat × Nat :=
  (significand * twoTo exponent.toNat, twoTo (-exponent).toNat)

/-- The bits of positive infinity. -/
def infinityBits : Nat := 0x7FF * twoTo 52

/-- The floating-point number with the given sign and the bits of a magnitude. -/
def floatOfBits (negative : Bool) (magnitude : Nat) : Float :=
  Float.ofBits (UInt64.ofNat ((if negative then twoTo 63 else 0) + min magnitude infinityBits))

/-- The floating-point number nearest to `± num / den`, a tie to the even neighbour. The unit in the last
place is `2 ^ unit`; a significand that rounds up to `2 ^ 53` carries into the exponent by itself. -/
def nearestFloat (negative : Bool) (num den : Nat) : Float :=
  if num = 0 then floatOfBits negative 0
  else
    -- numbers below the smallest normal one share its unit in the last place
    let unit : Int := max (log2Ratio num den - 52) (-1074)
    let significand := roundDiv (num * twoTo (-unit).toNat) (den * twoTo unit.toNat)
    floatOfBits negative ((unit + 1074).toNat * twoTo 52 + significand)

/-- The floating-point number nearest to `± digits · 10 ^ exponent`. Exponents beyond the range of the
numbers are answered without computing the power. -/
def nearestDecimal (negative : Bool) (digits : Nat) (exponent : Int) : Float :=
  if digits = 0 || (digitCount digits : Int) + exponent < -330 then floatOfBits negative 0
  else if 310 < (digitCount digits : Int) + exponent then floatOfBits negative infinityBits
  else
    let (num, den) := scaleTen digits 1 exponent
    nearestFloat negative num den

/-! ## Whole numbers -/

/-- The greatest whole number that is not above a finite number. -/
def floor? (x : Float) : Option Int :=
  match Binary.ofFloat x with
  | .finite negative m e =>
    let (num, den) := fractionOf m e
    some (if negative then -(((num + den - 1) / den : Nat) : Int) else ((num / den : Nat) : Int))
  | _ => none

/-- The number is that whole number. -/
def isInt (x : Float) (n : Int) : Bool := floor? x == some n && floor? (-x) == some (-n)

/-- A finite number without its fractional part. -/
def truncate? (x : Float) : Option Int :=
  match Binary.ofFloat x with
  | .finite negative m e =>
    let (num, den) := fractionOf m e
    some (if negative then -((num / den : Nat) : Int) else ((num / den : Nat) : Int))
  | _ => none

/-- The floating-point number nearest to a whole number. -/
def floatOfInt (n : Int) : Float := nearestFloat (decide (n < 0)) n.natAbs 1

/-- What the quotient truncated towards zero leaves of the first number, with the sign of the first. -/
def remainder (a b : Float) : Float :=
  match Binary.ofFloat a, Binary.ofFloat b with
  | .finite negative m e, .finite _ n f =>
    if n = 0 then 0.0 / 0.0
    else
      -- in units of the smaller exponent both numbers are whole
      let unit := min e f
      let left := m * twoTo (e - unit).toNat % (n * twoTo (f - unit).toNat)
      let (num, den) := fractionOf left unit
      nearestFloat negative num den
  | .finite .., .infinite _ => a
  | _, _ => 0.0 / 0.0

end FuzzyInference.Decimal
