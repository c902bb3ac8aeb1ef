import FuzzyInference.Rule.Vocabulary
import FuzzyInference.Variable.Basic

/-!
# The variables of an engine

An engine keeps its variables in a store: the inputs and the outputs in the order of their declaration, and
apart from them the variables that were removed, which rules loaded before still read and write.

## Main definitions

* `Variables.surroundings`: what terms see of the variables
* `Variables.inventory`: all variables with their terms
* `Variables.vocabulary`: what rules can speak of
* `Variables.degreeOf`: the degree of a proposition
* `Variables.conclude`: activates the term of a conclusion
-/

namespace FuzzyInference

open Scalar

/-- The variables of an engine. -/
structure Variables (α : Type) where
  inputs : List (Variable α)
  outputs : List (OutputVariable α)
  removedInputs : List (Variable α)
  removedOutputs : List (OutputVariable α)
  /-- The identity of the next variable. -/
  nextId : Nat
deriving Repr

namespace Variables

variable {α : Type}

/-- No variables. -/
def none : Variables α := ⟨[], [], [], [], 0⟩

/-- What terms see of the variables. -/
def surroundings (vs : Variables α) : Surroundings α where
  inputs := vs.inputs.map fun v => (v.name, v.value)
  outputs := vs.outputs.map fun v => (v.name, v.value)

/-- A variable with those of its terms that are chosen. -/
def entry (choose : Name → Bool) (v : Variable α) (isOutput : Bool) : VocabularyEntry :=
  ⟨⟨v.id, v.name.asText, isOutput⟩,
    (v.terms.filter fun t => choose t.name).map fun t => ⟨t.id, t.name.asText⟩⟩

/-- The variables and terms whose names are chosen. -/
def entries (choose : Name → Bool) (vs : Variables α) : Vocabulary where
  inputs := (vs.inputs.filter fun v => choose v.name).map fun v => entry choose v false
  outputs := (vs.outputs.filter fun v => choose v.name).map fun v => entry choose v.toVariable true

/-- All variables with their terms, in the order of their declaration. -/
def inventory (vs : Variables α) : Vocabulary := vs.entries fun _ => true

/-- What rules can speak of: names that are texts. -/
def vocabulary (vs : Variables α) : Vocabulary := vs.entries Name.isText

/-- The input of that identity, also one that was removed. -/
def input? (vs : Variables α) (id : Nat) : Option (Variable α) :=
  (vs.inputs ++ vs.removedInputs).find? fun v => v.id == id

/-- The output of that identity, also one that was removed. -/
def output? (vs : Variables α) (id : Nat) : Option (OutputVariable α) :=
  (vs.outputs ++ vs.removedOutputs).find? fun v => v.id == id

/-- Changes the inputs of that identity. -/
def modifyInput (vs : Variables α) (id : Nat) (f : Variable α → Variable α) : Variables α :=
  { vs with inputs := vs.inputs.map fun v => if v.id == id then f v else v }

/-- Changes the outputs of that identity, also those that were removed. -/
def modifyOutput (vs : Variables α) (id : Nat) (f : OutputVariable α → OutputVariable α) :
    Variables α :=
  { vs with
    outputs := vs.outputs.map fun v => if v.id == id then f v else v
    removedOutputs := vs.removedOutputs.map fun v => if v.id == id then f v else v }

/-- Puts an input, which gets an identity of its own, among the others by the given function. -/
def placeInput (vs : Variables α) (v : Variable α)
    (place : Variable α → List (Variable α) → List (Variable α)) : Variables α :=
  { vs with inputs := place { v with id := vs.nextId } vs.inputs, nextId := vs.nextId + 1 }

/-- Puts an output, which gets an identity of its own, among the others by the given function. -/
def placeOutput (vs : Variables α) (v : OutputVariable α)
    (place : OutputVariable α → List (OutputVariable α) → List (OutputVariable α)) : Variables α :=
  { vs with
    outputs := place (v.modify fun w => { w with id := vs.nextId }) vs.outputs
    nextId := vs.nextId + 1 }

/-! ## Propositions -/

variable [Scalar α]

/-- The degree to which a term is reached, before hedges: for an input, the membership of its value; for an
output, the degree to which rules that fired before activated the term. -/
def reached (vs : Variables α) (p : Proposition) (t : TermRef) : Except Error α :=
  if p.subject.isOutput then
    match vs.output? p.subject.id with
    | some v => v.fuzzyOutput.activationDegree t.id
    | .none => .ok 0.0
  else
    match vs.input? p.subject.id with
    | some v =>
      match v.termById? t.id with
      | some u => u.membership (some vs.surroundings) v.value
      | .none => .ok 0.0
    | .none => .ok 0.0

/-- The variable of a proposition takes part. -/
def isEnabled (vs : Variables α) (r : VariableRef) : Bool :=
  if r.isOutput then ((vs.output? r.id).map fun v => v.enabled).getD false
  else ((vs.input? r.id).map fun v => v.enabled).getD false

/-- The degree of a proposition: zero on a disabled variable, otherwise the degree of the term modified by
the hedges. Hedges that end with the one that matches everything need no term. -/
def degreeOf (vs : Variables α) (p : Proposition) : Except Error α :=
  if !vs.isEnabled p.subject then .ok 0.0
  else if p.matchesAny then Hedge.applyAll p.hedges 1.0
  else
    match p.term with
    | .none => .ok 0.0
    | some t => do
      let d ← vs.reached p t
      Hedge.applyAll p.hedges d

/-- Activates the term of a conclusion to the degree of the rule, modified by the hedges of the conclusion.
Disabled variables are left alone. -/
def conclude (vs : Variables α) (implication : Option TNorm) (degree : α) (p : Proposition) :
    Except Error (Variables α) :=
  if !vs.isEnabled p.subject then .ok vs
  else do
    let d ← Hedge.applyAll p.hedges degree
    match (vs.output? p.subject.id).bind fun v => p.term.bind fun t => v.termById? t.id with
    | some u => return vs.modifyOutput p.subject.id fun v => v.activate ⟨u, d, implication⟩
    | .none => return vs

end Variables

end FuzzyInference
