import FuzzyInference.Scalar.Tolerance
import FuzzyInference.Decimal.Layout
import FuzzyInference.Decimal.Reader
import FuzzyInference.Word

/-!
# Floating-point scalars

The scalars on which the engine runs are 64-bit floating-point numbers. Rounding to whole numbers and the
remainder are computed exactly from the significand and exponent; `expm1` and `log1p` keep their precision
near zero, where the plain difference and sum would lose it.

The second half fixes the texts of scalars: how many decimals are shown and how a scalar is read.
-/

namespace FuzzyInference

open Decimal

/-! ## §1 The instance -/

/-- `exp x - 1`, precise also near zero. -/
def expMinusOne (x : Float) : Float :=
  let u := Float.exp x
  if u == 1.0 then x
  else if u - 1.0 == -1.0 then -1.0
  else if u.isInf then u
  else (u - 1.0) * (x / Float.log u)

/-- `log (1 + x)`, precise also near zero. -/
def logOnePlus (x : Float) : Float :=
  let u := 1.0 + x
  if u == 1.0 then x
  else if u.isInf then Float.log u
  else Float.log u * (x / (u - 1.0))

/-- A function that is one at both zeros: cosine, the exponential function, and every power of that exponent. The
value is said here, since the function of the machine does not open up to proofs. -/
def oneAtZero (f : Float → Float) (x : Float) : Float := if x == 0.0 then 1.0 else f x

/-- The real functions on floating-point numbers. -/
def floatElementary : Elementary → Float → Float
  | .acos => Float.acos
  | .asin => Float.asin
  | .atan => Float.atan
  | .acosh => Float.acosh
  | .asinh => Float.asinh
  | .atanh => Float.atanh
  | .cos => oneAtZero Float.cos
  | .cosh => Float.cosh
  | .exp => oneAtZero Float.exp
  | .expm1 => expMinusOne
  | .log => Float.log
  | .log10 => Float.log10
  | .log1p => logOnePlus
  | .sin => Float.sin
  | .sinh => Float.sinh
  | .sqrt => Float.sqrt
  | .tan => Float.tan
  | .tanh => Float.tanh

/-- The greatest whole number that is not above the number; zero is never negative. -/
def floatFloor (x : Float) : Float :=
  match floor? x with
  | some n => floatOfInt n
  | none => x

/-- The least whole number that is not below the number; zero is never negative. -/
def floatCeil (x : Float) : Float :=
  match floor? (-x) with
  | some n => floatOfInt (-n)
  | none => x

/-- The number of samples from which on their eight bytes each are more than a word can count. -/
def addressableSamples : Float := 1152921504606846976.0

/-- The number of samples from which on memory is not asked for them. -/
def storableSamples : Float := 1073741824.0

/-- A number of samples is used as a floating-point number and as a word; a list of so many samples must be
possible, and fit into memory. -/
def floatCount (n : Int) : Except Fault Float :=
  let x := floatOfInt n
  if x.isInf then .error .overflow
  else if Float.abs x > 9223372036854775808.0 then .error .sampleCount
  else if !Word.holds n then .error .overflow
  else if addressableSamples ≤ x then .error .sampleCount
  else if storableSamples ≤ x then .error .memory
  else .ok x

instance : Scalar Float where
  decidableLT := inferInstance
  decidableLE := inferInstance
  nan := 0.0 / 0.0
  inf := 1.0 / 0.0
  pi := 3.141592653589793
  euler := 2.718281828459045
  abs := Float.abs
  floor := floatFloor
  ceil := floatCeil
  elementary := floatElementary
  pow x := oneAtZero (Float.pow x)
  rem := Decimal.remainder
  arctan2 := Float.atan2
  sampleCount := floatCount

/-! ## §2 Texts -/

namespace Scalar

/-- The number of decimals that are shown where none is asked for. -/
def defaultDecimals : Nat := 3

/-- The scalar with a fixed number of decimals. -/
def text (decimals : Nat) (x : Float) : String := fixedText decimals x

/-- The scalars with a fixed number of decimals, one space between two. -/
def textAll (decimals : Nat) (xs : List Float) : String :=
  String.intercalate " " (xs.map (text decimals))

/-- The largest number of decimals that can be asked for. -/
def mostDecimals : Nat := 2147483647

/-- Asks for a number of decimals that may be negative or too large. Such a number is refused as soon as one
of the scalars has decimals to show, that is, is finite. -/
def withDecimals (decimals : Int) (shown : List Float) (render : Nat → String) : Except Fault String :=
  if (decimals < 0 || mostDecimals < decimals) && shown.any isFinite then .error .decimals
  else .ok (render decimals.toNat)

/-- The scalar that a text denotes. -/
def read? (s : String) : Option Float := readFloat? s

end Scalar

end FuzzyInference
