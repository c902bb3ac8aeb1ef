import FuzzyInference.Catalogue
import FuzzyInference.Scalar.Tolerance

/-!
# Norms

T-norms implement the fuzzy *and*: the conjunction of a rule's conditions and the implication that shapes
its conclusion. S-norms implement the fuzzy *or*: the disjunction of conditions and the aggregation of
conclusions. Norms are meant for degrees between zero and one, where every one of them has a value; outside
that range the quotients of the Einstein norms may have a divisor of zero.

## Main definitions

* `TNorm.compute`, `SNorm.compute`: the value of a norm at two degrees
* `TNorm.catalogue`, `SNorm.catalogue`: the norms by name
-/

namespace FuzzyInference

open Scalar

/-! ## §1 T-norms -/

/-- The fuzzy conjunctions. -/
inductive TNorm
  | minimum | algebraicProduct | boundedDifference | drasticProduct
  | einsteinProduct | hamacherProduct | nilpotentMinimum
deriving DecidableEq, Repr

namespace TNorm

/-- All T-norms. -/
def all : List TNorm :=
  [minimum, algebraicProduct, boundedDifference, drasticProduct, einsteinProduct, hamacherProduct,
   nilpotentMinimum]

def name : TNorm → String
  | minimum => "Minimum"
  | algebraicProduct => "AlgebraicProduct"
  | boundedDifference => "BoundedDifference"
  | drasticProduct => "DrasticProduct"
  | einsteinProduct => "EinsteinProduct"
  | hamacherProduct => "HamacherProduct"
  | nilpotentMinimum => "NilpotentMinimum"

/-- The T-norms by name. -/
def catalogue : Catalogue TNorm := ⟨.tNorm, all.map fun t => (t.name, t)⟩

/-- The value of the norm at two degrees. -/
def compute {α : Type} [Scalar α] : TNorm → α → α → Except Fault α
  | minimum, a, b => .ok (least a b)
  | algebraicProduct, a, b => .ok (a * b)
  | boundedDifference, a, b => .ok (greatest 0.0 (a + b - 1.0))
  | drasticProduct, a, b => .ok (if near (greatest a b) 1.0 then least a b else 0.0)
  | einsteinProduct, a, b => divide (a * b) (2.0 - (a + b - a * b))
  | hamacherProduct, a, b =>
    let denominator := a + b - a * b
    .ok (if denominator == 0.0 then 0.0 else a * b / denominator)
  | nilpotentMinimum, a, b => .ok (if above (a + b) 1.0 then least a b else 0.0)

end TNorm

/-! ## §2 S-norms -/

/-- The fuzzy disjunctions. -/
inductive SNorm
  | maximum | algebraicSum | boundedSum | normalizedSum | drasticSum
  | einsteinSum | hamacherSum | nilpotentMaximum
  /-- The plain sum, for accumulations in which values above one have a meaning. -/
  | unboundedSum
deriving DecidableEq, Repr

namespace SNorm

/-- All S-norms. -/
def all : List SNorm :=
  [maximum, algebraicSum, boundedSum, normalizedSum, drasticSum, einsteinSum, hamacherSum,
   nilpotentMaximum, unboundedSum]

def name : SNorm → String
  | maximum => "Maximum"
  | algebraicSum => "AlgebraicSum"
  | boundedSum => "BoundedSum"
  | normalizedSum => "NormalizedSum"
  | drasticSum => "DrasticSum"
  | einsteinSum => "EinsteinSum"
  | hamacherSum => "HamacherSum"
  | nilpotentMaximum => "NilpotentMaximum"
  | unboundedSum => "UnboundedSum"

/-- The S-norms by name. -/
def catalogue : Catalogue SNorm := ⟨.sNorm, all.map fun s => (s.name, s)⟩

/-- The value of the norm at two degrees. -/
def compute {α : Type} [Scalar α] : SNorm → α → α → Except Fault α
  | maximum, a, b => .ok (greatest a b)
  | algebraicSum, a, b => .ok (a + b - a * b)
  | boundedSum, a, b => .ok (least 1.0 (a + b))
  | normalizedSum, a, b => divide (a + b) (greatest 1.0 (a + b))
  | drasticSum, a, b => .ok (if near (least a b) 0.0 then greatest a b else 1.0)
  | einsteinSum, a, b => divide (a + b) (1.0 + a * b)
  | hamacherSum, a, b =>
    let denominator := 1.0 - a * b
    .ok (if denominator == 0.0 then 1.0 else (a + b - 2.0 * a * b) / denominator)
  | nilpotentMaximum, a, b => .ok (if above 1.0 (a + b) then greatest a b else 1.0)
  | unboundedSum, a, b => .ok (a + b)

end SNorm

/-- How an operator without state describes itself. -/
def describeOperator (name : String) : String := name ++ "()"

end FuzzyInference
