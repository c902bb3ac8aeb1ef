import FuzzyInference.FuzzySet.Basic

/-!
# Defuzzifiers

A defuzzifier reduces a fuzzy set over a range to one crisp value.

*Integral* defuzzifiers sample the set on a regular grid, in the middle of each of as many cells as the
resolution says. *Weighted* defuzzifiers never sample: they combine the degree `w` of each activated term
with a single value `z` of the term, to `Σ(w·z) / Σw` or `Σ(w·z)`. The value is the membership of the
degree for crisp terms (Takagi-Sugeno), and the inverse of the degree for monotonic ones (Tsukamoto).

## Main definitions

* `grid`, `samples`: the points of the grid and the degrees there
* `IntegralMethod.reduce`: the crisp value that samples give
* `weightedSums`: both sums of a weighted defuzzifier
* `Defuzzifier.defuzzify`: the crisp value of a fuzzy set
-/

namespace FuzzyInference

open Scalar

/-! ## §1 Kinds -/

/-- Methods that sample. -/
inductive IntegralMethod
  /-- The point that halves the area under the curve. -/
  | bisector
  /-- The center of gravity of the area under the curve. -/
  | centroid
  /-- The last point of the greatest degree. -/
  | largestOfMaximum
  /-- The middle of the first plateau of the greatest degree. -/
  | meanOfMaximum
  /-- The first point of the greatest degree. -/
  | smallestOfMaximum
deriving DecidableEq, Repr

/-- Methods that weight the values of activated terms. -/
inductive WeightedMethod
  | average | sum
deriving DecidableEq, Repr

/-- Which value of an activated term is weighted. -/
inductive WeightedType
  /-- The type that suits the first activated term, applied to all. -/
  | automatic
  | takagiSugeno | tsukamoto
deriving DecidableEq, Repr

/-- A defuzzifier with its parameters. -/
inductive Defuzzifier
  | integral (method : IntegralMethod) (resolution : Int)
  | weighted (method : WeightedMethod) (type : WeightedType)
deriving DecidableEq, Repr

def IntegralMethod.name : IntegralMethod → String
  | bisector => "Bisector"
  | centroid => "Centroid"
  | largestOfMaximum => "LargestOfMaximum"
  | meanOfMaximum => "MeanOfMaximum"
  | smallestOfMaximum => "SmallestOfMaximum"

def WeightedMethod.name : WeightedMethod → String
  | average => "WeightedAverage"
  | sum => "WeightedSum"

namespace WeightedType

def name : WeightedType → String
  | automatic => "Automatic"
  | takagiSugeno => "TakagiSugeno"
  | tsukamoto => "Tsukamoto"

/-- The type of that name. -/
def ofName (name : String) : Except Error WeightedType :=
  match [automatic, takagiSugeno, tsukamoto].find? fun t => t.name == name with
  | some t => .ok t
  | none => .error (.configuration (.unknownWeightedType name))

/-- The type that a value names; only texts are names of types. -/
def ofValue : Value → Except Error WeightedType
  | .text s => ofName s
  | v => do throw (.configuration (.unknownWeightedType (← v.written)))

/-- The type that suits a fuzzy set. -/
def infer {α : Type} (s : FuzzySet α) : WeightedType := if s.isCrisp then takagiSugeno else tsukamoto

end WeightedType

variable {α : Type} [Scalar α]

/-! ## §2 Sampling -/

/-- The middles of the cells into which the resolution cuts the range. -/
def grid (minimum maximum : α) (resolution : Int) : Except Fault (List α) := do
  let dx ← divide (maximum - minimum) (← sampleCount resolution)
  return (List.range resolution.toNat).map fun i => minimum + (ofNat i + 0.5) * dx

/-- The points of the grid, each with the degree there. -/
def samples (f : α → Except Error α) (minimum maximum : α) (resolution : Int) :
    Except Error (List (α × α)) := do
  let xs ← grid minimum maximum resolution
  xs.mapM fun x => do return (x, ← f x)

/-- The sum of scalars, from the first to the last. -/
def total (xs : List α) : α := xs.foldl (· + ·) 0.0

/-- The middle of the range. -/
def middle (minimum maximum : α) : α := 0.5 * (minimum + maximum)

/-- An area too small to divide by. -/
def negligible (area : α) : Bool := decide (abs area < tolerance)

/-! ## §3 Integral methods -/

/-- The center of gravity of samples. -/
def centroid (minimum maximum : α) (ss : List (α × α)) : α :=
  let area := total (ss.map Prod.snd)
  if negligible area then middle minimum maximum
  else total (ss.map fun (x, y) => x * y) / area

/-- What the bisection has counted: an area and a position at either side. -/
structure Halves (α : Type) where
  leftArea : α
  rightArea : α
  leftX : α
  rightX : α
deriving Repr

/-- Counts so many samples from both ends, the next one always at the side whose area is smaller. The
samples are given in their order and in the opposite one. -/
def Halves.count (h : Halves α) : Nat → List (α × α) → List (α × α) → Halves α
  | 0, _, _ => h
  | n + 1, fromLeft, fromRight =>
    -- neither side runs out of samples before all of them are counted
    if atMost h.leftArea h.rightArea then
      match fromLeft with
      | [] => h
      | (x, y) :: rest =>
        Halves.count { h with leftArea := h.leftArea + y, leftX := x } n rest fromRight
    else
      match fromRight with
      | [] => h
      | (x, y) :: rest =>
        Halves.count { h with rightArea := h.rightArea + y, rightX := x } n fromLeft rest

/-- The point between the last positions of both sides, weighted by the area of the opposite side. -/
def bisector (minimum maximum : α) (ss : List (α × α)) : α :=
  let h := Halves.count ⟨0.0, 0.0, minimum, maximum⟩ ss.length ss ss.reverse
  let area := h.leftArea + h.rightArea
  if negligible area then middle minimum maximum
  else (h.leftArea * h.rightX + h.rightArea * h.leftX) / area

/-- The greatest of scalars, `nan` left out. -/
def peak (ys : List α) : α :=
  ys.foldl (fun best y => if isNaN best then y else if best < y then y else best) nan

/-- The degree reaches the greatest one, up to the tolerance. -/
def reaches (top y : α) : Bool := decide (abs (y - top) < tolerance)

/-- The points of a non-empty list of samples at which the degree is greatest: the first, the last, and the
last of the first plateau. Where no degree reaches the greatest, which is `nan` or infinite, the first and
the last sample stand in. -/
def peakPoints (s : α × α) (ss : List (α × α)) : α × α × α :=
  let all := s :: ss
  let top := peak (all.map Prod.snd)
  let atPeak (p : α × α) : Bool := reaches top p.2
  let first := (all.find? atPeak).getD s
  let last := (all.reverse.find? atPeak).getD (all.getLastD s)
  -- the plateau ends where the degree first falls below the peak
  let plateau := (all.dropWhile (! atPeak ·)).takeWhile atPeak
  (first.1, last.1, (plateau.getLastD s).1)

/-- The crisp value that samples over a range give. -/
def IntegralMethod.reduce (m : IntegralMethod) (minimum maximum : α) (ss : List (α × α)) :
    Except Fault α :=
  match m, ss with
  | centroid, ss => .ok (FuzzyInference.centroid minimum maximum ss)
  | bisector, ss => .ok (FuzzyInference.bisector minimum maximum ss)
  -- the other methods look for a greatest degree, which an empty list does not have
  | _, [] => .error .noSamples
  | smallestOfMaximum, s :: ss => .ok (peakPoints s ss).1
  | largestOfMaximum, s :: ss => .ok (peakPoints s ss).2.1
  | meanOfMaximum, s :: ss => .ok (0.5 * ((peakPoints s ss).1 + (peakPoints s ss).2.2))

/-! ## §4 Weighted methods -/

/-- The single value that an activated term contributes. -/
def contribution (around : Option (Surroundings α)) (type : WeightedType) (minimum maximum : α)
    (a : Activated α) : Except Error α :=
  match type with
  | .takagiSugeno => a.term.membership around a.degree
  | _ => a.term.invert a.degree minimum maximum

/-- Adds the contributions of activated terms to both sums, in order. -/
def addContributions (around : Option (Surroundings α)) (type : WeightedType) (minimum maximum : α)
    (aggregation : Option SNorm) : α × α → List (Activated α) → Except Error (α × α)
  | sums, [] => .ok sums
  | (weighted, weights), a :: rest => do
    let z ← contribution around type minimum maximum a
    let wz ← implied a.implication a.degree z
    let weighted ← Aggregated.accumulate aggregation weighted wz
    let weights ← Aggregated.accumulate aggregation weights a.degree
    addContributions around type minimum maximum aggregation (weighted, weights) rest

/-- The type that is in force for an aggregated set. -/
def WeightedType.resolve (type : WeightedType) (s : Aggregated α) : WeightedType :=
  match type, s.terms with
  | automatic, a :: _ => infer (.term a.term)
  | type, _ => type

/-- Both sums, joined by the aggregation where there is one. -/
def weightedSums (around : Option (Surroundings α)) (type : WeightedType) (s : Aggregated α)
    (minimum maximum : α) : Except Error (α × α) :=
  addContributions around (type.resolve s) minimum maximum s.aggregation (0.0, 0.0) s.terms

/-! ## §5 Defuzzification -/

namespace Defuzzifier

/-- The number of cells where none is asked for. -/
def defaultResolution : Int := 200

def name : Defuzzifier → String
  | integral m _ => m.name
  | weighted m _ => m.name

/-- The parameters: the resolution, or the type. -/
def parameters : Defuzzifier → String
  | integral _ resolution => toString resolution
  | weighted _ type => type.name

/-- The defuzzifier in one line. -/
def text (d : Defuzzifier) : String := d.name ++ " " ++ d.parameters

/-- The resolution is short enough to be written. -/
def isWritable : Defuzzifier → Bool
  | integral _ resolution => Decimal.isWritable resolution
  | weighted .. => true

def isIntegral : Defuzzifier → Bool
  | integral .. => true
  | weighted .. => false

/-- The defuzzifiers by name, with default parameters. -/
def catalogue : Catalogue Defuzzifier :=
  ⟨.defuzzifier,
    ([.bisector, .centroid, .largestOfMaximum, .meanOfMaximum, .smallestOfMaximum].map
      fun m => (m.name, integral m defaultResolution)) ++
    ([.average, .sum].map fun m => (m.name, weighted m .automatic))⟩

/-- A defuzzifier by name. The resolution concerns integral ones only, the type weighted ones only; each
keeps its default where none is given. -/
def build (name : String) (resolution type : Value) : Except Error (Option Defuzzifier) := do
  match ← catalogue.optional name with
  | none => return none
  | some (integral m default) =>
    match resolution with
    | .none => return some (integral m default)
    | v => return some (integral m (← v.toInt))
  | some (weighted m default) =>
    if type.isPresent then return some (weighted m (← WeightedType.ofValue type))
    else return some (weighted m default)

/-- What a defuzzifier has to report about a set beside its crisp value. -/
inductive Notice (α : Type)
  /-- No rule fired. -/
  | empty
  /-- The range is infinite or unknown, so that nothing can be sampled. -/
  | unboundedRange (minimum maximum : α)
  /-- The degrees add up to zero. -/
  | zeroWeights

/-- The set is an aggregated one without activated terms. -/
def isEmptyOutput : FuzzySet α → Bool
  | .aggregated s => s.isEmpty
  | _ => false

/-- The crisp value of a fuzzy set over a range; `nan` for an aggregated set without activated terms, for a
range that cannot be sampled, and for degrees that add up to zero. -/
def defuzzify (d : Defuzzifier) (around : Option (Surroundings α)) (s : FuzzySet α)
    (minimum maximum : α) : Except Error α :=
  match d with
  | integral m resolution =>
    if isEmptyOutput s || !(isFinite minimum && isFinite maximum) then .ok nan
    else do
      let ss ← samples (s.membership around) minimum maximum resolution
      m.reduce minimum maximum ss
  | weighted m type =>
    match s with
    | .aggregated s =>
      if s.isEmpty then .ok nan
      else do
        let (total, weights) ← weightedSums around type s minimum maximum
        match m with
        | .average => if negligible weights then return nan else divide total weights
        | .sum => return total
    -- only activated terms have degrees to weight
    | s => .error (.evaluation (.notAggregated d.name s.kindName s.name.asText))

/-- What there is to report about a set. -/
def notice? (d : Defuzzifier) (around : Option (Surroundings α)) (s : FuzzySet α)
    (minimum maximum : α) : Option (Notice α) :=
  if isEmptyOutput s then some .empty
  else
    match d, s with
    | integral .., _ =>
      if isFinite minimum && isFinite maximum then none else some (.unboundedRange minimum maximum)
    | weighted .average type, .aggregated s =>
      match weightedSums around type s minimum maximum with
      | .ok (_, weights) => if negligible weights then some .zeroWeights else none
      | .error _ => none
    | _, _ => none

end Defuzzifier

end FuzzyInference
