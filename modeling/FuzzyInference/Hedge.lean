import FuzzyInference.Catalogue
import FuzzyInference.Scalar.Basic

/-!
# Hedges

A hedge modifies the degree of a proposition before it reaches the connectives of a rule, as in
`Ambient is very DARK`. In a chain the hedge that is written closest to the term acts first.

## Main statements

* `Hedge.applyAll_append`: a chain acts like its end followed by its beginning
-/

namespace FuzzyInference

open Scalar

/-- Unary modifiers of degrees. -/
inductive Hedge
  /-- Matches whatever the degree is. -/
  | any
  /-- The complement. -/
  | not
  | extremely | seldom | somewhat | very
deriving DecidableEq, Repr

namespace Hedge

/-- All hedges. -/
def all : List Hedge := [any, not, extremely, seldom, somewhat, very]

/-- The word that a rule uses. -/
def name : Hedge → String
  | any => "any"
  | not => "not"
  | extremely => "extremely"
  | seldom => "seldom"
  | somewhat => "somewhat"
  | very => "very"

/-- The name as a title. -/
def title : Hedge → String
  | any => "Any"
  | not => "Not"
  | extremely => "Extremely"
  | seldom => "Seldom"
  | somewhat => "Somewhat"
  | very => "Very"

/-- The hedges by name. -/
def catalogue : Catalogue Hedge := ⟨.hedge, all.map fun h => (h.name, h)⟩

/-- The hedge of that name, if any. -/
def ofName? (name : String) : Option Hedge := catalogue.find? name

variable {α : Type} [Scalar α]

/-- The modified degree. -/
def apply : Hedge → α → Except Fault α
  | any, _ => .ok 1.0
  | not, x => .ok (1.0 - x)
  | extremely, x =>
    .ok (if x ≤ 0.5 then 2.0 * x * x else 1.0 - 2.0 * (1.0 - x) * (1.0 - x))
  | seldom, x =>
    if x ≤ 0.5 then Scalar.apply .sqrt (0.5 * x)
    else do return 1.0 - (← Scalar.apply .sqrt (0.5 * (1.0 - x)))
  | somewhat, x => Scalar.apply .sqrt x
  | very, x => .ok (x * x)

/-- The degree modified by a chain, from the last hedge to the first. -/
def applyAll : List Hedge → α → Except Fault α
  | [], x => .ok x
  | h :: hs, x => applyAll hs x >>= h.apply

/-- A chain acts like its end followed by its beginning. -/
theorem applyAll_append (hs ks : List Hedge) (x : α) :
    applyAll (hs ++ ks) x = applyAll ks x >>= applyAll hs := by
  induction hs with
  | nil => cases h : applyAll ks x <;> simp [applyAll, h, bind, Except.bind]
  | cons h hs ih =>
    cases hk : applyAll ks x <;> simp [applyAll, ih, hk, bind, Except.bind]

end Hedge

end FuzzyInference
