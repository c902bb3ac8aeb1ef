import FuzzyInference.Norm
import FuzzyInference.Term.Basic

/-!
# Cumulative sets

A standing union of plain terms. Where terms overlap, their degrees are added, or joined by the
accumulation if there is one. The set keeps the least interval that covers the supports of its terms.

## Main definitions

* `Cumulative.append`, `Cumulative.clear`
* `Cumulative.membership`: the degree of a crisp value
-/

namespace FuzzyInference

open Scalar

variable {α : Type}

/-- A union of plain terms. -/
structure Cumulative (α : Type) where
  name : Name
  accumulation : Option SNorm
  terms : List (Term α)
  minimum : α
  maximum : α
deriving Repr

variable [Scalar α]

namespace Cumulative

/-- The union of no terms, with an empty interval. -/
def empty (name : Name) (accumulation : Option SNorm) : Cumulative α :=
  ⟨name, accumulation, [], inf, -inf⟩

/-- The union without its terms. -/
def clear (s : Cumulative α) : Cumulative α := empty s.name s.accumulation

/-- The union with one more term; the interval grows to the support of the term. -/
def append (s : Cumulative α) (t : Term α) : Cumulative α :=
  let (lower, upper) := t.support
  { s with
    terms := s.terms ++ [t]
    minimum := least s.minimum lower
    maximum := greatest s.maximum upper }

/-- Joins a degree to those before it. -/
def join (accumulation : Option SNorm) (before y : α) : Except Fault α :=
  match accumulation with
  | some s => s.compute before y
  | none => .ok (before + y)

/-- Joins the degrees of a crisp value in terms to a degree, in order. -/
def joinDegrees (accumulation : Option SNorm) (around : Option (Surroundings α)) (x : α) :
    α → List (Term α) → Except Error α
  | before, [] => .ok before
  | before, t :: rest => do
    let y ← t.membership around x
    let after ← join accumulation before y
    joinDegrees accumulation around x after rest

/-- The degree of a crisp value. -/
def membership (around : Option (Surroundings α)) (s : Cumulative α) (x : α) : Except Error α :=
  joinDegrees s.accumulation around x 0.0 s.terms

/-- The accumulation and the names of the terms. -/
def parameters (s : Cumulative α) : String :=
  (s.accumulation.map SNorm.name).getD "sum" ++ " " ++ Text.unwords (s.terms.map fun t => t.name.asText)

end Cumulative

end FuzzyInference
