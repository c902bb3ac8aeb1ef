import FuzzyInference.Decimal.Binary

/-!
# Texts of numbers

Three ways to write a finite number in decimal, all from its exact value:

* `fixedText`: a given number of decimals
* `significantText`: a given number of significant digits, without trailing zeros
* `shortestText`: the fewest digits that read back as the number

The last two share a `Layout`, which says when a number is written positionally and when with an exponent.
-/

namespace FuzzyInference.Decimal

/-! ## §1 Layouts -/

/-- Where positional notation ends, and how a whole number is marked. -/
structure Layout where
  /-- Exponents of the leading digit from `-4` on and below this one are written positionally. -/
  limit : Int
  /-- What follows a whole number. -/
  wholeMark : List Char

namespace Layout

/-- The exponent part: a sign and at least two digits. -/
def exponentPart (x : Int) : List Char :=
  let digits := Nat.toDigits 10 x.natAbs
  'e' :: (if x < 0 then '-' else '+') :: List.replicate (2 - digits.length) '0' ++ digits

/-- The point stands after the digit with exponent zero. -/
def positional (l : Layout) (digits : List Char) (x : Int) : List Char :=
  if x < 0 then
    '0' :: '.' :: List.replicate (-x - 1).toNat '0' ++ digits
  else
    let whole := x.toNat + 1
    if digits.length ≤ whole then
      digits ++ List.replicate (whole - digits.length) '0' ++ l.wholeMark
    else digits.take whole ++ '.' :: digits.drop whole

/-- One digit stands before the point. -/
def scientific (digits : List Char) (x : Int) : List Char :=
  match digits with
  | [] => exponentPart x
  | [d] => d :: exponentPart x
  | d :: rest => d :: '.' :: rest ++ exponentPart x

/-- Writes the digits of a number whose leading digit has the exponent `x`. -/
def write (l : Layout) (negative : Bool) (digits : List Char) (x : Int) : String :=
  let body := if -4 ≤ x && x < l.limit then l.positional digits x else scientific digits x
  String.ofList (if negative then '-' :: body else body)

end Layout

/-- Drops the zeros at the end, but not a single zero. -/
def dropTrailingZeros (digits : List Char) : List Char :=
  match (digits.reverse.dropWhile (· == '0')).reverse with
  | [] => ['0']
  | ds => ds

/-! ## §2 A given number of decimals -/

/-- The digits of `n` units of `10 ^ -places`, with a point before the last `places` of them. -/
def placeText (places n : Nat) : List Char :=
  let digits := Nat.toDigits 10 n
  let padded := List.replicate (places + 1 - digits.length) '0' ++ digits
  if places = 0 then padded
  else padded.take (padded.length - places) ++ '.' :: padded.drop (padded.length - places)

/-- The number of units of `10 ^ -places` nearest to a magnitude. -/
def unitsOf (places significand : Nat) (exponent : Int) : Nat :=
  let (num, den) := fractionOf significand exponent
  roundDiv (num * tenTo places) den

/-- The number with a fixed number of decimals. A number that rounds to zero is written without a sign. -/
def fixedText (places : Nat) (x : Float) : String :=
  match Binary.ofFloat x with
  | .nan => "nan"
  | .infinite negative => if negative then "-inf" else "inf"
  | .finite negative m e =>
    let n := unitsOf places m e
    let body := placeText places n
    String.ofList (if negative && n != 0 then '-' :: body else body)

/-! ## §3 Significant digits -/

/-- The decimal digits of `num / den` rounded to `count` significant ones, and the exponent of the first. -/
def significantDigits (count num den : Nat) : List Char × Int :=
  let x := log10Ratio num den
  let (n, d) := scaleTen num den ((count : Int) - 1 - x)
  let rounded := roundDiv n d
  -- rounding up may add a digit
  if rounded = tenTo count then (Nat.toDigits 10 (tenTo (count - 1)), x + 1)
  else (Nat.toDigits 10 rounded, x)

/-- The number rounded to `count` significant digits, without trailing zeros. -/
def significantText (count : Nat) (x : Float) : String :=
  match Binary.ofFloat x with
  | .nan => "nan"
  | .infinite negative => if negative then "-inf" else "inf"
  | .finite negative m e =>
    let l : Layout := ⟨count, []⟩
    if m = 0 then l.write negative ['0'] 0
    else
      let (num, den) := fractionOf m e
      let (digits, k) := significantDigits count num den
      l.write negative (dropTrailingZeros digits) k

/-! ## §4 The fewest digits -/

/-- The reals that round to the magnitude `m · 2 ^ e`, as an interval of quarters of `2 ^ e`: its ends and
whether they belong to it. Below a power of two the numbers lie twice as close. -/
def roundingInterval (m : Nat) (e : Int) : Nat × Nat × Bool :=
  (if m = twoTo 52 && -1074 < e then 4 * m - 1 else 4 * m - 2, 4 * m + 2, m % 2 = 0)

/-- The multiple of `10 ^ k` nearest to `m · 2 ^ e` among its two neighbours that round to it, the even one
of two equally near. -/
def gridNeighbour? (m : Nat) (e k : Int) (interval : Nat × Nat × Bool) : Option Nat :=
  let (low, high, closed) := interval
  -- quarters of `2 ^ e` and units of `10 ^ k` over a common denominator
  let (quarter, quarterDen) := fractionOf 1 (e - 2)
  let unit := tenTo k.toNat * quarterDen
  let scale := quarter * tenTo (-k).toNat
  let value := 4 * m * scale
  let below := value / unit
  let inside (n : Nat) : Bool :=
    let v := n * unit
    if closed then low * scale ≤ v && v ≤ high * scale else low * scale < v && v < high * scale
  let distBelow := value - below * unit
  let distAbove := (below + 1) * unit - value
  match inside below, inside (below + 1) with
  | true, true =>
    if distBelow < distAbove then some below
    else if distAbove < distBelow then some (below + 1)
    else some (below + below % 2)
  | true, false => some below
  | false, true => some (below + 1)
  | false, false => none

/-- Tries ever finer grids, from `count` significant digits on, for at most `fuel` grids. Seventeen digits
always suffice, so the search ends with an answer. -/
def shortestSearch (m : Nat) (e x : Int) (interval : Nat × Nat × Bool) : Nat → Nat → Nat × Int
  -- not reached: some number of seventeen digits always reads back
  | 0, count => (m, x - (count : Int))
  | fuel + 1, count =>
    let k := x + 1 - (count : Int)
    match gridNeighbour? m e k interval with
    | some n => (n, k)
    | none => shortestSearch m e x interval fuel (count + 1)

/-- The fewest decimal digits of a positive magnitude that read back as it, and the exponent of the first:
of those the nearest to the magnitude. -/
def shortestDigits (m : Nat) (e : Int) : List Char × Int :=
  let (num, den) := fractionOf m e
  let x := log10Ratio num den
  let (n, k) := shortestSearch m e x (roundingInterval m e) 17 1
  let digits := Nat.toDigits 10 n
  (dropTrailingZeros digits, k + digits.length - 1)

/-- Numbers in formulas and lists: positional up to sixteen digits, and a whole number shows one decimal. -/
def shortestLayout : Layout := ⟨16, ['.', '0']⟩

/-- The number with the fewest digits that read back as it. -/
def shortestText (x : Float) : String :=
  match Binary.ofFloat x with
  | .nan => "nan"
  | .infinite negative => if negative then "-inf" else "inf"
  | .finite negative m e =>
    if m = 0 then shortestLayout.write negative ['0'] 0
    else
      let (digits, k) := shortestDigits m e
      shortestLayout.write negative digits k

end FuzzyInference.Decimal
