import FuzzyInference.Norm
import FuzzyInference.Term.Basic

/-!
# Activated terms and their aggregation

A rule that fires activates the term of each of its conclusions to a degree. The activated terms of an
output variable are collected in an *aggregated* set, in the order in which rules fire, and the set is what
a defuzzifier reduces to a crisp value.

## Main definitions

* `Activated.membership`: the degree of a crisp value in an activated term
* `Aggregated.membership`: the degree of a crisp value in the collection
* `Aggregated.activationDegree`: the degree to which one term is activated
* `Aggregated.highest?`: the activated term of the highest degree
-/

namespace FuzzyInference

open Scalar

variable {α : Type}

/-- A term scaled by the degree to which a rule fired. -/
structure Activated (α : Type) where
  term : Term α
  degree : α
  /-- Combines the degree with the membership; their product is used without one. -/
  implication : Option TNorm
deriving Repr

/-- The activated terms of one output variable. -/
structure Aggregated (α : Type) where
  name : Name
  minimum : α
  maximum : α
  /-- Joins the activated terms. Without one, each term takes the place of those before it. -/
  aggregation : Option SNorm
  terms : List (Activated α)
deriving Repr

variable [Scalar α]

/-- A degree combined with a value by an implication, or by their product. -/
def implied (implication : Option TNorm) (degree y : α) : Except Fault α :=
  match implication with
  | some t => t.compute degree y
  | none => .ok (degree * y)

namespace Activated

/-- The degree of a crisp value. -/
def membership (around : Option (Surroundings α)) (a : Activated α) (x : α) : Except Error α := do
  let y ← a.term.membership around x
  implied a.implication a.degree y

end Activated

namespace Aggregated

/-- The set without activated terms. -/
def clear (s : Aggregated α) : Aggregated α := { s with terms := [] }

/-- The set with one more activated term at the end. -/
def add (s : Aggregated α) (a : Activated α) : Aggregated α := { s with terms := s.terms ++ [a] }

/-- No rule fired. -/
def isEmpty (s : Aggregated α) : Bool := s.terms.isEmpty

/-- Joins a value to what was joined before. -/
def join (aggregation : Option SNorm) (before y : α) : Except Fault α :=
  match aggregation with
  | some s => s.compute before y
  | none => .ok y

/-- Joins the degrees of a crisp value in activated terms to a degree, in order. -/
def joinDegrees (aggregation : Option SNorm) (around : Option (Surroundings α)) (x : α) :
    α → List (Activated α) → Except Error α
  | before, [] => .ok before
  | before, a :: rest => do
    let y ← a.membership around x
    let after ← join aggregation before y
    joinDegrees aggregation around x after rest

/-- The degree of a crisp value. -/
def membership (around : Option (Surroundings α)) (s : Aggregated α) (x : α) : Except Error α :=
  joinDegrees s.aggregation around x 0.0 s.terms

/-- Adds a degree to those before it, by the aggregation or as a sum. -/
def accumulate (aggregation : Option SNorm) (before degree : α) : Except Fault α :=
  match aggregation with
  | some s => s.compute before degree
  | none => .ok (before + degree)

/-- Accumulates degrees, in order. -/
def accumulateAll (aggregation : Option SNorm) : α → List α → Except Fault α
  | before, [] => .ok before
  | before, d :: rest => do
    let after ← accumulate aggregation before d
    accumulateAll aggregation after rest

/-- The degrees to which one term is activated. -/
def degreesOf (s : Aggregated α) (id : Nat) : List α :=
  (s.terms.filter fun a => a.term.id == id).map Activated.degree

/-- The degree to which one term is activated by all rules together; zero when none fired for it. -/
def activationDegree (s : Aggregated α) (id : Nat) : Except Fault α :=
  accumulateAll s.aggregation 0.0 (s.degreesOf id)

/-- The higher of two activated terms. The first one keeps its place on a tie, and degrees that are not
positive never take it. -/
def higher (best : Option (Activated α)) (a : Activated α) : Option (Activated α) :=
  if isNaN a.degree || decide (a.degree ≤ 0.0) then best
  else
    match best with
    | none => some a
    | some b => if b.degree < a.degree then some a else best

/-- The first activated term of the highest positive degree. -/
def highest? (s : Aggregated α) : Option (Activated α) := s.terms.foldl higher none

/-- The width of the range. -/
def range (s : Aggregated α) : α := s.maximum - s.minimum

end Aggregated

/-! ## Texts -/

namespace Activated

/-- The degree and the name of the term. -/
def parameters (a : Activated Float) (decimals : Nat) : String :=
  text decimals a.degree ++ "/" ++ a.term.name.asText

/-- The degree and the term, as arguments of the implication or as a product. -/
def text (a : Activated Float) : String :=
  let degree := Scalar.text defaultDecimals a.degree
  match a.implication with
  | some t => t.name ++ "(" ++ degree ++ "," ++ a.term.name.asText ++ ")"
  | none => "(" ++ degree ++ "*" ++ a.term.name.asText ++ ")"

end Activated

namespace Aggregated

/-- The activated terms, in brackets after the aggregation. -/
def text (s : Aggregated Float) : String :=
  if s.isEmpty then "(empty)"
  else
    let aggregation := (s.aggregation.map SNorm.name).getD ""
    aggregation ++ "[" ++ String.intercalate "," (s.terms.map Activated.text) ++ "]"

/-- The aggregation, the range and the activated terms. -/
def parameters (s : Aggregated Float) (decimals : Nat) : String :=
  let aggregation := (s.aggregation.map SNorm.name).getD "none"
  aggregation ++ " " ++ textAll decimals [s.minimum, s.maximum] ++ " " ++ s.text

end Aggregated

end FuzzyInference
