import FuzzyInference.Document.Sections
import FuzzyInference.Engine.Basic

/-!
# Configuring engines

Operators are named once for the whole engine. They are set on every rule block and output variable that
has none of its own; an empty name leaves the operator unset.

All names are checked before anything is changed. The resolution is read only for the outputs that need
it, one after the other, so that one which is no whole number is refused when the outputs before are
already equipped.

## Main definitions

* `OperatorNames.resolve`: the operators of names
* `Engine.configure`: sets the operators that are missing
-/

namespace FuzzyInference

/-- The operators that an engine is configured with, apart from defuzzifiers. -/
structure Operators where
  conjunction : Option TNorm
  disjunction : Option SNorm
  implication : Option TNorm
  aggregation : Option SNorm
  activation : Option (Activation Float)

namespace OperatorNames

/-- The activation method where none is named. -/
def defaultActivation : String := (Activation.general : Activation Float).name

/-- The names in the entries of a table. -/
def ofTable (t : Value) : Except Fault OperatorNames := do
  let conjunction ← t.entryName "conjunction"
  let disjunction ← t.entryName "disjunction"
  let implication ← t.entryName "implication"
  let aggregation ← t.entryName "aggregation"
  let defuzzifier ← t.entryName "defuzzifier"
  let activation ← ((t.entry? "activation").getD (.text defaultActivation)).nameText
  return ⟨conjunction, disjunction, implication, aggregation, defuzzifier, activation⟩

/-- The operators of names, every one of which must be known. -/
def resolve (names : OperatorNames) : Except Error Operators := do
  let conjunction ← TNorm.catalogue.optional names.conjunction
  let disjunction ← SNorm.catalogue.optional names.disjunction
  let implication ← TNorm.catalogue.optional names.implication
  let aggregation ← SNorm.catalogue.optional names.aggregation
  let _ ← Defuzzifier.catalogue.optional names.defuzzifier
  let activation ← Activation.catalogue.optional names.activation
  return ⟨conjunction, disjunction, implication, aggregation, activation⟩

end OperatorNames

/-- Sets the operators that a block does not have. -/
def RuleBlock.equip (ops : Operators) (b : RuleBlock Float) : RuleBlock Float :=
  { b with
    conjunction := b.conjunction <|> ops.conjunction
    disjunction := b.disjunction <|> ops.disjunction
    implication := b.implication <|> ops.implication
    activation := b.activation <|> ops.activation }

namespace OutputVariable

/-- Sets the aggregation that an output does not have. -/
def equipAggregation (ops : Operators) (v : OutputVariable Float) : OutputVariable Float :=
  { v with fuzzyOutput := { v.fuzzyOutput with
    aggregation := v.fuzzyOutput.aggregation <|> ops.aggregation } }

/-- Sets the aggregation and the defuzzifier that an output does not have. -/
def equip (ops : Operators) (defuzzifier : String) (resolution : Value) (v : OutputVariable Float) :
    Outcome (Event Float) (OutputVariable Float) :=
  let v := v.equipAggregation ops
  match v.defuzzifier with
  | some _ => .done v
  | none =>
    match Defuzzifier.build defuzzifier resolution .none with
    | .ok d => .done { v with defuzzifier := d }
    | .error e => .stop e v

/-- Equips outputs in order; those after one that is stopped stay as they were. -/
def equipAll (ops : Operators) (defuzzifier : String) (resolution : Value) :
    List (OutputVariable Float) → Outcome (Event Float) (List (OutputVariable Float))
  | [] => .done []
  | v :: rest =>
    let o := v.equip ops defuzzifier resolution
    -- when this output is refused, the rest is left as it is
    (o.map fun v => v :: rest).andThen fun _ =>
      (equipAll ops defuzzifier resolution rest).map fun rest => o.state :: rest

end OutputVariable

namespace Engine

/-- Sets the operators that blocks and outputs do not have. -/
def configure (e : Engine Float) (names : OperatorNames) (resolution : Value) :
    Outcome (Event Float) (Engine Float) :=
  match names.resolve with
  | .error error => .stop error e
  | .ok ops =>
    let equipped := OutputVariable.equipAll ops names.defuzzifier resolution e.outputs
    let changed := equipped.map fun outputs =>
      { e with
        store := { e.store with outputs }
        blocks := e.blocks.map (RuleBlock.equip ops) }
    changed.andThen fun e => .report (.engineConfigured e.name names) e

/-- Configures an engine as a table of settings asks. -/
def configureBy (e : Engine Float) (settings : Value) : Outcome (Event Float) (Engine Float) :=
  match OperatorNames.ofTable settings with
  | .error f => .stop (.fault f) e
  | .ok names => e.configure names (settings.entryOrNone "resolution")

end Engine

end FuzzyInference
