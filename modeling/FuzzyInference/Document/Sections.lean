import FuzzyInference.RuleBlock
import FuzzyInference.Rule.Codes

/-!
# Sections of a configuration

A configuration describes every variable and every rule block by a table. An entry that is absent has a
default; only the name of a variable must be given. A rule block lists rules in words, followed by rules in
codes, which refer to the variables that the engine has by then.

## Main definitions

* `Variable.ofTable`, `OutputVariable.ofTable`
* `RuleBlock.ofTable`
-/

namespace FuzzyInference

open Scalar

namespace Value

/-- The value of an entry, or nothing. -/
def entryOrNone (t : Value) (key : String) : Value := (t.entry? key).getD Value.none

/-- The name in a table, which is empty where none is given. -/
def label (t : Value) : Name := .ofValue ((t.entry? "name").getD (text ""))

/-- The scalar in an entry, with a default. -/
def entryScalar (t : Value) (key : String) (default : Float) : Except Error Float :=
  match t.entry? key with
  | some v => v.toScalar
  | Option.none => .ok default

/-- The name of the variable that a table describes. -/
def ownerName (t : Value) : Except Error Name :=
  match t.entry? "name" with
  | some v => .ok (.ofValue v)
  | Option.none => .error (.fault .missingEntry)

/-- The range of the variable that a table describes, unbounded unless it is given. A range is a list: a
table of two entries has none at the first position. -/
def limits (t : Value) : Except Error (Float × Float) :=
  match t.entry? "range" with
  | Option.none => .ok (-inf, inf)
  | some (.table [_, _]) => .error (.fault .missingEntry)
  | some v =>
    match v.items with
    | [low, high] => do return (← low.toScalar, ← high.toScalar)
    | _ => do throw (.configuration (.rangeSize (← t.label.written)))

/-- An entry that every term must have. -/
def termEntry (owner : Name) (key : String) (t : Value) : Except Error Value :=
  match t.entry? key with
  | some v => .ok v
  | Option.none => do throw (.configuration (.termEntryMissing (← owner.written) (Text.quoted key)))

end Value

/-! ## §1 Variables -/

namespace Variable

/-- The term that a table describes, for a variable of the given name. -/
def termOfTable (r : TermRegistry) (owner : Name) (t : Value) : Except Error (Term Float) := do
  let kind ← t.termEntry owner "type"
  let name ← t.termEntry owner "name"
  let parameters := t.entryOrNone "parameters"
  r.build kind (.ofValue name) parameters

/-- Adds the terms that tables describe, in order. -/
def addTables (r : TermRegistry) (v : Variable Float) : List Value → Except Error (Variable Float)
  | [] => .ok v
  | t :: rest => do
    let term ← termOfTable r v.name t
    let v ← v.addTerm term
    addTables r v rest

/-- Takes over what a table says of variables of both kinds. -/
def fill (r : TermRegistry) (v : Variable Float) (t : Value) : Except Error (Variable Float) :=
  addTables r
    { v with enabled := t.entryFlag "enabled" true, lockValueInRange := t.entryFlag "lock_range" false }
    (t.entryItems "terms")

/-- The input variable that a table describes. -/
def ofTable (r : TermRegistry) (t : Value) : Except Error (Variable Float) := do
  let name ← t.ownerName
  let (minimum, maximum) ← t.limits
  let v ← (Variable.empty name minimum maximum).fill r t
  match t.entry? "value" with
  | some x => return v.assign (← x.toScalar)
  | none => return v

end Variable

namespace OutputVariable

/-- The output variable that a table describes. -/
def ofTable (r : TermRegistry) (t : Value) : Except Error (OutputVariable Float) := do
  let name ← t.ownerName
  let (minimum, maximum) ← t.limits
  let v := OutputVariable.empty name minimum maximum
  let base ← v.toVariable.fill r t
  let defaultValue ← t.entryScalar "default" nan
  let aggregation ← SNorm.catalogue.optional (← t.entryName "aggregation")
  let defuzzifier ← Defuzzifier.build (← t.entryName "defuzzifier") (t.entryOrNone "resolution")
    (t.entryOrNone "type")
  return { v with
    toVariable := base
    fuzzyOutput := { v.fuzzyOutput with aggregation }
    defuzzifier
    defaultValue
    lockPreviousValue := t.entryFlag "lock_previous" false }

end OutputVariable

/-! ## §2 Rule blocks -/

namespace RuleBlock

/-- The rule block that a table describes, for an engine with all the given variables. -/
def ofTable (inventory : Vocabulary) (t : Value) : Except Error (RuleBlock Float) := do
  let conjunction ← TNorm.catalogue.optional (← t.entryName "conjunction")
  let disjunction ← SNorm.catalogue.optional (← t.entryName "disjunction")
  let implication ← TNorm.catalogue.optional (← t.entryName "implication")
  let activation ← Activation.build (← t.entryName "activation") (t.entryOrNone "activation_parameters")
  let inWords := (t.entryItems "rules").map Value.asText
  let inCodes ← (t.entryItems "codes").mapM fun row =>
    CodedRule.text <$> CodedRule.ofCodes inventory row.items
  return ⟨t.label, t.entryFlag "enabled" true, conjunction, disjunction, implication,
    activation, (inWords ++ inCodes).map Rule.ofText⟩

end RuleBlock

end FuzzyInference
