import FuzzyInference.Fault

/-!
# Scalars

The inference engine computes with *scalars*: numbers extended by the two infinities and by `nan`, the
value of an input that was never set. Everything that evaluates is generic in the scalars, so that one
definition both runs, on 64-bit floating-point numbers, and can be read over exact arithmetic.

The operations of the class are total. A *checked* operation refuses the arguments at which a total one
would hide a mistake: a quotient by zero (`divide`), a real function outside its domain (`apply`), a power
that is too large (`power`).

## Main definitions

* `Scalar`: the operations and constants that the engine needs
* `Scalar.divide`, `Scalar.apply`, `Scalar.power`, `Scalar.square`, `Scalar.remainder`: checked operations
-/

namespace FuzzyInference

/-- The real functions of one argument that formulas and membership functions use. -/
inductive Elementary
  | acos | asin | atan | acosh | asinh | atanh
  | cos | cosh | exp | expm1 | log | log10 | log1p
  | sin | sinh | sqrt | tan | tanh
deriving DecidableEq, Repr

namespace Elementary

/-- Functions that leave every bound at finite arguments only because they grow too fast. An infinite
value of any other function at a finite argument marks a pole, which is outside the domain. -/
def grows : Elementary → Bool
  | cosh | exp | expm1 | sinh => true
  | _ => false

end Elementary

/-- Numbers with infinities and `nan`. `==`, `<` and `≤` are the comparisons of numbers: all three are
false when an operand is `nan`, and two zeros of different sign are equal. -/
class Scalar (α : Type) extends
    Add α, Sub α, Mul α, Div α, Neg α, BEq α, LT α, LE α, OfScientific α where
  /-- The order can be tested. -/
  decidableLT : DecidableLT α
  /-- The weak order can be tested. -/
  decidableLE : DecidableLE α
  /-- Not a number: the value of everything that was never set. -/
  nan : α
  /-- Positive infinity. -/
  inf : α
  /-- The ratio of a circle's circumference to its diameter. -/
  pi : α
  /-- The base of natural logarithms. -/
  euler : α
  /-- The absolute value. -/
  abs : α → α
  /-- The greatest whole number that is not above a finite scalar. -/
  floor : α → α
  /-- The least whole number that is not below a finite scalar. -/
  ceil : α → α
  /-- A real function, continued by limits to the infinities and by `nan` outside its domain. -/
  elementary : Elementary → α → α
  /-- The first argument raised to the second. -/
  pow : α → α → α
  /-- What the quotient truncated towards zero leaves of the first argument. -/
  rem : α → α → α
  /-- The angle of the point with the given ordinate and abscissa. -/
  arctan2 : α → α → α
  /-- A number of samples as a scalar. A machine refuses numbers that it cannot count or hold; exact scalars
  refuse none. -/
  sampleCount : Int → Except Fault α

namespace Scalar

variable {α : Type} [Scalar α]

instance : DecidableLT α := decidableLT

instance : DecidableLE α := decidableLE

/-! ## §1 Classes of scalars -/

/-- Not a number: the only scalars that differ from themselves. -/
def isNaN (x : α) : Bool := x != x

/-- One of the two infinities. -/
def isInf (x : α) : Bool := x == inf || x == -inf

/-- Neither `nan` nor an infinity. -/
def isFinite (x : α) : Bool := !(isNaN x || isInf x)

/-- The whole number `n`. -/
def ofNat (n : Nat) : α := OfScientific.ofScientific n false 0

/-! ## §2 Choosing one of two scalars -/

/-- The second scalar when it is smaller, else the first. -/
def least (a b : α) : α := if b < a then b else a

/-- The second scalar when it is greater, else the first. -/
def greatest (a b : α) : α := if a < b then b else a

/-- The nearest scalar of the interval, and `nan` for `nan`. -/
def bound (x minimum maximum : α) : α :=
  if maximum < x then maximum else if x < minimum then minimum else x

/-! ## §3 Checked operations -/

/-- The quotient; a divisor of zero is refused. -/
def divide (a b : α) : Except Fault α :=
  if b == 0.0 then .error .zeroDivision else .ok (a / b)

/-- A real function. A result that is `nan` where the argument was not, or infinite where the argument was
finite, is refused. -/
def apply (f : Elementary) (x : α) : Except Fault α :=
  let y := elementary f x
  if isNaN y && !isNaN x then .error .domain
  else if isInf y && isFinite x then .error (if f.grows then .overflow else .domain)
  else .ok y

/-- A power. Of finite arguments, a negative base under a fractional exponent, zero under a negative
exponent and a result beyond every finite scalar are refused. -/
def power (a b : α) : Except Fault α :=
  let y := pow a b
  if isFinite a && isFinite b then
    if isNaN y then .error .domain
    else if isInf y then .error (if a == 0.0 then .zeroDivision else .overflow)
    else .ok y
  else .ok y

/-- The square; of a finite scalar, a result beyond every finite scalar is refused. -/
def square (x : α) : Except Fault α :=
  let y := x * x
  if isInf y && isFinite x then .error .overflow else .ok y

/-- The remainder of a quotient truncated towards zero. A result that is `nan` where neither argument was
is refused. -/
def remainder (a b : α) : Except Fault α :=
  let y := rem a b
  if isNaN y && !isNaN a && !isNaN b then .error .domain else .ok y

/-- The linear map that takes the interval `[fromMin, fromMax]` to `[toMin, toMax]`. -/
def rescale (x fromMin fromMax toMin toMax : α) : Except Fault α := do
  return (← divide (toMax - toMin) (fromMax - fromMin)) * (x - fromMin) + toMin

end Scalar

end FuzzyInference
