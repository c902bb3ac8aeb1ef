import FuzzyInference.Catalogue
import FuzzyInference.Document.Value
import FuzzyInference.Position

/-!
# Activation methods

An activation method decides which rules of a block fire, and in which order, from the degrees that their
antecedents reach. It is asked with the degrees of all enabled rules that are loaded, in the order in which
the rules are declared.

## Main definitions

* `Activation`: the methods with their parameters
* `Activation.select`: the rules that a method chooses, each with the degree with which it fires
-/

namespace FuzzyInference

open Scalar

/-! ## §1 Methods -/

/-- Comparisons of a degree with a threshold, all of them tolerant. -/
inductive Comparison
  | less | lessEq | equal | notEqual | greaterEq | greater
deriving DecidableEq, Repr

namespace Comparison

def text : Comparison → String
  | less => "<"
  | lessEq => "<="
  | equal => "=="
  | notEqual => "!="
  | greaterEq => ">="
  | greater => ">"

/-- The comparison with that sign. -/
def ofText (s : String) : Except Error Comparison :=
  match [less, lessEq, equal, notEqual, greaterEq, greater].find? fun c => c.text == s with
  | some c => .ok c
  | none => .error (.configuration (.unknownComparison s))

def holds {α : Type} [Scalar α] : Comparison → α → α → Bool
  | less, a, b => below a b
  | lessEq, a, b => atMost a b
  | equal, a, b => near a b
  | notEqual, a, b => !near a b
  | greaterEq, a, b => atLeast a b
  | greater, a, b => above a b

end Comparison

/-- The ways to choose rules. -/
inductive Activation (α : Type)
  /-- Every rule of positive degree. -/
  | general
  /-- The first so many rules whose degree is positive and reaches the bar. -/
  | first (count : Int) (bar : α)
  /-- The last so many of these rules, from the last one backwards. -/
  | last (count : Int) (bar : α)
  /-- The rules of the highest positive degrees. -/
  | highest (count : Int)
  /-- The rules of the lowest positive degrees. -/
  | lowest (count : Int)
  /-- Every rule whose degree compares with the value. -/
  | threshold (comparison : Comparison) (value : α)
  /-- Every rule of positive degree, with its share of the sum of these degrees. -/
  | proportional
deriving Repr

namespace Activation

variable {α : Type}

def name : Activation α → String
  | general => "General"
  | first .. => "First"
  | last .. => "Last"
  | highest .. => "Highest"
  | lowest .. => "Lowest"
  | threshold .. => "Threshold"
  | proportional => "Proportional"

variable [Scalar α] {ι : Type}

/-! ## §2 Choosing rules -/

/-- Puts an item before the first one whose key is greater, so that items of equal keys keep their order
when they are inserted from the last one on. -/
def insertByKey (key : α × ι → α) (p : α × ι) : List (α × ι) → List (α × ι)
  | [] => [p]
  | q :: rest => if key q < key p then q :: insertByKey key p rest else p :: q :: rest

/-- Items by increasing keys; of equal keys, the earlier item comes first. -/
def sortByKey (key : α × ι → α) (ps : List (α × ι)) : List (α × ι) := ps.foldr (insertByKey key) []

/-- The degree is positive. -/
def fires (p : α × ι) : Bool := above p.1 0.0

/-- As many items as asked for, from the start; a negative number leaves out so many at the end. -/
def takeSlice (count : Int) (ps : List (α × ι)) : List (α × ι) :=
  ps.take (Position.sliceEnd ps.length count)

/-- The sum of the degrees. -/
def sumOfDegrees (ps : List (α × ι)) : α := ps.foldl (fun acc p => acc + p.1) 0.0

/-- The rules that the method chooses, in the order in which they fire, each with the degree with which it
fires. A chosen rule whose degree is not positive does not fire in the end. -/
def select (m : Activation α) (ps : List (α × ι)) : List (α × ι) :=
  match m with
  | general => ps.filter fires
  | first count bar => (ps.filter fun p => fires p && atLeast p.1 bar).take count.toNat
  | last count bar => (ps.reverse.filter fun p => fires p && atLeast p.1 bar).take count.toNat
  -- sorting by the opposite keeps the order of equal degrees, which reversing would not
  | highest count => takeSlice count (sortByKey (fun p => -p.1) (ps.filter fires))
  | lowest count => takeSlice count (sortByKey (fun p => p.1) (ps.filter fires))
  | threshold comparison value =>
    ps.filter fun p => !isNaN p.1 && comparison.holds p.1 value
  | proportional =>
    -- many degrees within the tolerance do not fire, however great their sum is
    let positive := ps.filter fires
    let sum := sumOfDegrees positive
    if above sum 0.0 then positive.map fun (d, i) => (d / sum, i) else []

/-- A proportional method that finds no positive degree. -/
def findsNothing (m : Activation α) (ps : List (α × ι)) : Bool :=
  match m with
  | proportional => !above (sumOfDegrees (ps.filter fires)) 0.0
  | _ => false

/-! ## §3 Parameters -/

/-- The text of the parameters. -/
def parameters : Activation Float → String
  | first count bar | last count bar => toString count ++ " " ++ text defaultDecimals bar
  | highest count | lowest count => toString count
  | threshold comparison value => comparison.text ++ " " ++ text defaultDecimals value
  | general | proportional => ""

/-- The method in one line. -/
def describe (m : Activation Float) : String := Text.trimRight (m.name ++ " " ++ m.parameters)

/-- The methods by name, with default parameters. -/
def catalogue : Catalogue (Activation Float) :=
  ⟨.activation,
    ([general, first 1 0.0, last 1 0.0, highest 1, lowest 1, threshold .greaterEq 0.0,
      proportional] : List (Activation Float)).map fun m => (m.name, m)⟩

/-- The number of rules that a text denotes. -/
def countOfText (s : String) : Except Error Int := do
  let x ← Value.scalarOfText s
  Value.truncated x

/-- The number of rules and the threshold of a method that counts. -/
def countAndThreshold (name s : String) : Except Error (Int × Float) :=
  match Text.words s with
  | [count, bar] => do return (← countOfText count, ← Value.scalarOfText bar)
  | ws =>
    .error (.configuration (.activationParameters name "number of rules, threshold" ws.length))

/-- The method with other parameters, given as a text. -/
def configure (m : Activation Float) (s : String) : Except Error (Activation Float) :=
  match m with
  | general => .ok general
  | proportional => .ok proportional
  | first .. => do
    let (count, bar) ← countAndThreshold m.name s
    return first count bar
  | last .. => do
    let (count, bar) ← countAndThreshold m.name s
    return last count bar
  | highest .. => do return highest (← countOfText s)
  | lowest .. => do return lowest (← countOfText s)
  | threshold .. =>
    match Text.words s with
    | [comparison, value] => do
      return threshold (← Comparison.ofText comparison) (← Value.scalarOfText value)
    | ws => .error (.configuration (.activationParameters m.name "comparison, value" ws.length))

/-- A method by name, with parameters given as a text or a list. -/
def build (name : String) (parameters : Value) : Except Error (Option (Activation Float)) := do
  match ← catalogue.optional name with
  | none => return none
  | some m =>
    if !parameters.isPresent then return some m
    else
      match parameters with
      | .text s => return some (← m.configure s)
      | v => return some (← m.configure (← Value.writtenWords v.items))

end Activation

end FuzzyInference
