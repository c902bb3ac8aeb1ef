import FuzzyInference.Error
import FuzzyInference.Scalar.Tolerance

/-!
# Shapes

The curves that map a crisp value to a degree. A shape is a kind together with its parameters; the curve of
height one is scaled by the height of the term. Five kinds are monotonic and can be inverted: given a
degree, they name a crisp value.

## Main definitions

* `Shape`: the curves with their parameters
* `Shape.membership`: the degree of a crisp value
* `Shape.support`: an interval outside which the degree is zero
* `Shape.invert`: the crisp value of a degree, for monotonic shapes
-/

namespace FuzzyInference

open Scalar

/-! ## §1 Kinds and parameters -/

/-- The kinds of curves. -/
inductive ShapeKind
  | bell | binary | concave | cosine | discrete | gaussian | gaussianProduct | piShape | ramp | rectangle
  | sShape | sigmoid | sigmoidDifference | sigmoidProduct | spike | trapezoid | triangle | zShape
deriving DecidableEq, Repr

namespace ShapeKind

/-- All kinds. -/
def all : List ShapeKind :=
  [bell, binary, concave, cosine, discrete, gaussian, gaussianProduct, piShape, ramp, rectangle, sShape,
   sigmoid, sigmoidDifference, sigmoidProduct, spike, trapezoid, triangle, zShape]

def name : ShapeKind → String
  | bell => "Bell"
  | binary => "Binary"
  | concave => "Concave"
  | cosine => "Cosine"
  | discrete => "Discrete"
  | gaussian => "Gaussian"
  | gaussianProduct => "GaussianProduct"
  | piShape => "PiShape"
  | ramp => "Ramp"
  | rectangle => "Rectangle"
  | sShape => "SShape"
  | sigmoid => "Sigmoid"
  | sigmoidDifference => "SigmoidDifference"
  | sigmoidProduct => "SigmoidProduct"
  | spike => "Spike"
  | trapezoid => "Trapezoid"
  | triangle => "Triangle"
  | zShape => "ZShape"

/-- The number of parameters; a discrete shape has as many as its points need. -/
def arity : ShapeKind → Nat
  | discrete => 0
  | binary | concave | cosine | gaussian | ramp | rectangle | sShape | sigmoid | spike | zShape => 2
  | bell | triangle => 3
  | gaussianProduct | piShape | sigmoidDifference | sigmoidProduct | trapezoid => 4

end ShapeKind

/-- A curve with its parameters. -/
inductive Shape (α : Type)
  | bell (center width slope : α)
  /-- A step at the start, towards the direction. -/
  | binary (start direction : α)
  /-- Rises to the end when the inflection is before it, else falls. -/
  | concave (inflection stop : α)
  | cosine (center width : α)
  /-- Straight lines between points, flat outside. -/
  | discrete (points : List (α × α))
  | gaussian (mean deviation : α)
  /-- The left half of one bell curve and the right half of another, flat between them. -/
  | gaussianProduct (meanA deviationA meanB deviationB : α)
  | piShape (bottomLeft topLeft topRight bottomRight : α)
  /-- Rises from the start to the end, or falls when the end is before the start. -/
  | ramp (start stop : α)
  | rectangle (start stop : α)
  | sShape (start stop : α)
  | sigmoid (inflection slope : α)
  | sigmoidDifference (left rising falling right : α)
  | sigmoidProduct (left rising falling right : α)
  | spike (center width : α)
  | trapezoid (a b c d : α)
  | triangle (a b c : α)
  | zShape (start stop : α)
deriving Repr

namespace Shape

variable {α : Type}

def kind : Shape α → ShapeKind
  | bell .. => .bell
  | binary .. => .binary
  | concave .. => .concave
  | cosine .. => .cosine
  | discrete .. => .discrete
  | gaussian .. => .gaussian
  | gaussianProduct .. => .gaussianProduct
  | piShape .. => .piShape
  | ramp .. => .ramp
  | rectangle .. => .rectangle
  | sShape .. => .sShape
  | sigmoid .. => .sigmoid
  | sigmoidDifference .. => .sigmoidDifference
  | sigmoidProduct .. => .sigmoidProduct
  | spike .. => .spike
  | trapezoid .. => .trapezoid
  | triangle .. => .triangle
  | zShape .. => .zShape

/-- The parameters in the order in which they are configured. -/
def values : Shape α → List α
  | bell c w s => [c, w, s]
  | binary s d => [s, d]
  | concave i e => [i, e]
  | cosine c w => [c, w]
  | discrete points => points.flatMap fun (x, y) => [x, y]
  | gaussian m d => [m, d]
  | gaussianProduct m d n e => [m, d, n, e]
  | piShape a b c d => [a, b, c, d]
  | ramp s e => [s, e]
  | rectangle s e => [s, e]
  | sShape s e => [s, e]
  | sigmoid i s => [i, s]
  | sigmoidDifference l r f t => [l, r, f, t]
  | sigmoidProduct l r f t => [l, r, f, t]
  | spike c w => [c, w]
  | trapezoid a b c d => [a, b, c, d]
  | triangle a b c => [a, b, c]
  | zShape s e => [s, e]

/-- Neighbouring values as points; a value without a neighbour is left out. -/
def pairs : List α → List (α × α)
  | x :: y :: rest => (x, y) :: pairs rest
  | _ => []

/-- The shape of a kind with the given parameters, if their number is right. -/
def ofValues? : ShapeKind → List α → Option (Shape α)
  | .bell, [c, w, s] => some (bell c w s)
  | .binary, [s, d] => some (binary s d)
  | .concave, [i, e] => some (concave i e)
  | .cosine, [c, w] => some (cosine c w)
  | .discrete, vs => some (discrete (pairs vs))
  | .gaussian, [m, d] => some (gaussian m d)
  | .gaussianProduct, [m, d, n, e] => some (gaussianProduct m d n e)
  | .piShape, [a, b, c, d] => some (piShape a b c d)
  | .ramp, [s, e] => some (ramp s e)
  | .rectangle, [s, e] => some (rectangle s e)
  | .sShape, [s, e] => some (sShape s e)
  | .sigmoid, [i, s] => some (sigmoid i s)
  | .sigmoidDifference, [l, r, f, t] => some (sigmoidDifference l r f t)
  | .sigmoidProduct, [l, r, f, t] => some (sigmoidProduct l r f t)
  | .spike, [c, w] => some (spike c w)
  | .trapezoid, [a, b, c, d] => some (trapezoid a b c d)
  | .triangle, [a, b, c] => some (triangle a b c)
  | .zShape, [s, e] => some (zShape s e)
  | _, _ => none

theorem pairs_flatMap (points : List (α × α)) :
    pairs (points.flatMap fun (x, y) => [x, y]) = points := by
  induction points with
  | nil => rfl
  | cons p points ih => simp [pairs, ih]

/-- The parameters of a shape configure it again. -/
theorem ofValues_values (s : Shape α) : ofValues? s.kind s.values = some s := by
  cases s <;> simp [kind, values, ofValues?, pairs_flatMap]

/-! ## §2 Curves -/

variable [Scalar α]

/-- A curve of width zero: zero but at its center, where it is undefined. -/
def collapsed (x center : α) : α := if near x center then nan else 0.0

/-- Rises from zero at the start to one at the end in two parabolas. -/
def sCurve (x start stop : α) : Except Fault α :=
  if atMost x start then .ok 0.0
  else if atMost x (0.5 * (start + stop)) then do
    return 2.0 * (← square (← divide (x - start) (stop - start)))
  else if below x stop then do
    return 1.0 - 2.0 * (← square (← divide (x - stop) (stop - start)))
  else .ok 1.0

/-- Falls from one at the start to zero at the end in two parabolas. -/
def zCurve (x start stop : α) : Except Fault α :=
  if atMost x start then .ok 1.0
  else if atMost x (0.5 * (start + stop)) then do
    return 1.0 - 2.0 * (← square (← divide (x - start) (stop - start)))
  else if below x stop then do
    return 2.0 * (← square (← divide (x - stop) (stop - start)))
  else .ok 0.0

/-- Exponents above this one are not raised; the logistic curve is zero there. -/
def exponentLimit : α := 700.0

/-- Goes from zero to one, steepest at the inflection. -/
def logistic (x inflection slope : α) : Except Fault α :=
  let exponent := -slope * (x - inflection)
  if exponentLimit < exponent then .ok 0.0
  else do divide 1.0 (1.0 + (← apply .exp exponent))

/-- The bell curve around the mean. -/
def gaussCurve (x mean deviation : α) : Except Fault α := do
  apply .exp (← divide (-(← square (x - mean))) (2.0 * deviation * deviation))

/-- Halving search: the first index from `lo` on and below `hi` that is beyond, or `hi`, provided that what
follows a place that is beyond is beyond as well. -/
def bisect (beyond : Nat → Bool) (lo hi : Nat) : Nat :=
  if lo < hi then
    let mid := (lo + hi) / 2
    if beyond mid then bisect beyond lo mid else bisect beyond (mid + 1) hi
  else lo
termination_by hi - lo
decreasing_by all_goals omega

/-- The height of the line through the points at both sides of `x`. -/
def interpolate (points : List (α × α)) (x : α) : Except Fault α :=
  let upper := bisect (fun i => decide (x < (points.map Prod.fst).getD i nan)) 0 points.length
  match points[upper - 1]?, points[upper]? with
  | some (x₀, y₀), some (x₁, y₁) => rescale x x₀ x₁ y₀ y₁
  | _, _ => .error .index

/-! ## §3 Degrees -/

/-- The degree of a crisp value that is not `nan`, except for discrete shapes. -/
def degree (s : Shape α) (height x : α) : Except Fault α :=
  match s with
  | bell center width slope =>
    if near width 0.0 then .ok (height * collapsed x center)
    else do
      let distance := abs (← divide (x - center) width)
      divide height (1.0 + (← power distance (2.0 * slope)))
  | binary start direction =>
    if start < direction && atLeast x start then .ok (height * 1.0)
    else if direction < start && atMost x start then .ok (height * 1.0)
    else .ok 0.0
  | concave i e =>
    if atMost i e then
      if below x e then divide (height * (e - i)) (2.0 * e - i - x) else .ok (height * 1.0)
    else if above x e then divide (height * (i - e)) (i - 2.0 * e + x)
    else .ok (height * 1.0)
  | cosine center width =>
    let half := 0.5 * width
    if below x (center - half) || above x (center + half) then .ok 0.0
    else do
      let angle := (← divide 2.0 width) * pi * (x - center)
      return height * 0.5 * (1.0 + (← apply .cos angle))
  | discrete points =>
    match points.head?, points.getLast? with
    | some (firstX, firstY), some (lastX, lastY) =>
      if atMost x firstX then .ok (height * firstY)
      else if atLeast x lastX then .ok (height * lastY)
      else do return height * (← interpolate points x)
    | _, _ => .error .index
  | gaussian mean deviation =>
    if near deviation 0.0 then .ok (height * collapsed x mean)
    else do return height * (← gaussCurve x mean deviation)
  | gaussianProduct meanA deviationA meanB deviationB =>
    if below x meanA && near deviationA 0.0 then .ok 0.0
    else do
      let a ← if below x meanA then gaussCurve x meanA deviationA else .ok 1.0
      if above x meanB && near deviationB 0.0 then return 0.0
      let b ← if above x meanB then gaussCurve x meanB deviationB else .ok 1.0
      return height * a * b
  | piShape bottomLeft topLeft topRight bottomRight => do
    let s ← sCurve x bottomLeft topLeft
    let z ← zCurve x topRight bottomRight
    return height * s * z
  | ramp start stop =>
    if near start stop then .ok 0.0
    else if below start stop then
      if atMost x start then .ok 0.0
      else if atLeast x stop then .ok (height * 1.0)
      else divide (height * (x - start)) (stop - start)
    else if atLeast x start then .ok 0.0
    else if atMost x stop then .ok (height * 1.0)
    else divide (height * (start - x)) (start - stop)
  | rectangle start stop =>
    .ok (if atLeast x start && atMost x stop then height * 1.0 else 0.0)
  | sShape start stop => do return height * (← sCurve x start stop)
  | sigmoid inflection slope => do return height * (← logistic x inflection slope)
  | sigmoidDifference left rising falling right => do
    let a ← logistic x left rising
    let b ← logistic x right falling
    return height * abs (a - b)
  | sigmoidProduct left rising falling right => do
    let a ← logistic x left rising
    let b ← logistic x right falling
    return height * a * b
  | spike center width =>
    if near width 0.0 then .ok (height * collapsed x center)
    else do return height * (← apply .exp (-abs ((← divide 10.0 width) * (x - center))))
  | trapezoid a b c d =>
    if below x a || above x d then .ok 0.0
    else if below x b then
      if a == -inf then .ok (height * 1.0)
      else do return height * least 1.0 (← divide (x - a) (b - a))
    else if atMost x c then .ok (height * 1.0)
    else if below x d then
      if d == inf then .ok (height * 1.0) else divide (height * (d - x)) (d - c)
    else if d == inf then .ok (height * 1.0)
    else .ok 0.0
  | triangle a b c =>
    if below x a || above x c then .ok 0.0
    else if near x b then .ok (height * 1.0)
    else if below x b then
      if a == -inf then .ok (height * 1.0) else divide (height * (x - a)) (b - a)
    else if c == inf then .ok (height * 1.0)
    else divide (height * (c - x)) (c - b)
  | zShape start stop => do return height * (← zCurve x start stop)

/-- The shape is a discrete one without points, which has no degrees. -/
def isBlank : Shape α → Bool
  | discrete [] => true
  | _ => false

/-- The degree of a crisp value; that of `nan` is `nan`. The name is that of the term, for errors. -/
def membership (s : Shape α) (name : String) (height x : α) : Except Error α :=
  if isNaN x then .ok nan
  else if s.isBlank then .error (.evaluation (.noPoints name))
  else s.degree height x

/-- An interval outside which the degree is zero; all scalars for shapes that promise none. -/
def support : Shape α → α × α
  | triangle a _ c => (a, c)
  | trapezoid a _ _ d => (a, d)
  | rectangle start stop => (start, stop)
  | ramp start stop => if start < stop then (start, inf) else (-inf, start)
  | piShape bottomLeft _ _ bottomRight => (bottomLeft, bottomRight)
  | cosine center width => (center - 0.5 * width, center + 0.5 * width)
  | discrete points =>
    match points.head?, points.getLast? with
    | some (firstX, _), some (lastX, _) => (firstX, lastX)
    | _, _ => (nan, nan)
  | _ => (-inf, inf)

/-! ## §4 Inversion -/

/-- The shape rises or falls throughout and can be inverted. -/
def isMonotonic : Shape α → Bool
  | ramp .. | sShape .. | zShape .. | sigmoid .. | concave .. => true
  | _ => false

/-- Degrees of which a crisp value can be asked. -/
def inUnitInterval (w : α) : Bool := !isNaN w && atLeast w 0.0 && atMost w 1.0

/-- The crisp value of height one at which a monotonic shape has the degree `w`, within the given range
where the shape never reaches it. -/
def inverse (s : Shape α) (w minimum maximum : α) : Except Fault α :=
  match s with
  | ramp start stop => rescale w 0.0 1.0 start stop
  | sShape start stop =>
    if !inUnitInterval w then .ok nan
    else
      let difference := stop - start
      if atMost w 0.5 then do return start + difference * (← apply .sqrt (0.5 * w))
      else do return stop - difference * (← apply .sqrt (0.5 * (1.0 - w)))
  | zShape start stop =>
    if !inUnitInterval w then .ok nan
    else
      let difference := stop - start
      if atLeast w 0.5 then do return start + difference * (← apply .sqrt (0.5 * (1.0 - w)))
      else do return stop - difference * (← apply .sqrt (0.5 * w))
  | sigmoid inflection slope =>
    if near w 1.0 then .ok (if atLeast slope 0.0 then maximum else minimum)
    else if near w 0.0 then .ok (if atLeast slope 0.0 then minimum else maximum)
    else if !inUnitInterval w then .ok nan
    else do
      let t ← apply .log ((← divide 1.0 w) - 1.0)
      return inflection + (← divide t (-slope))
  | concave i e => do return (← divide (i - e) w) + 2.0 * e - i
  | _ => .ok nan

/-- The crisp value of a degree. Only monotonic shapes have one. -/
def invert (s : Shape α) (name : String) (w minimum maximum : α) : Except Error α :=
  if s.isMonotonic then s.inverse w minimum maximum
  else .error (.evaluation (.notMonotonic s.kind.name name))

end Shape

end FuzzyInference
