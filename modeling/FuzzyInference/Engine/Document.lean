import FuzzyInference.Engine.Configure

/-!
# Engines from documents

A document describes an engine by a table `engine` of settings and by lists of tables `input`, `output` and
`rule_block`. The engine is assembled in this order, then configured with the operators of the settings,
and at last its rules are loaded. What a section sets for itself stays; the settings fill in the rest.

## Main definitions

* `Engine.assemble`: the variables and blocks of a document
* `Engine.ofDocument`: the engine of a document, configured and loaded
-/

namespace FuzzyInference

namespace Engine

/-- The settings of a document. -/
def settings (doc : Value) : Value := (doc.entry? "engine").getD (.table [])

/-- Adds the inputs that tables describe, in order. -/
def addInputs (r : TermRegistry) (e : Engine Float) (ts : List Value) : Except Error (Engine Float) :=
  ts.foldlM (fun e t => e.addInput <$> Variable.ofTable r t) e

/-- Adds the outputs that tables describe, in order. -/
def addOutputs (r : TermRegistry) (e : Engine Float) (ts : List Value) : Except Error (Engine Float) :=
  ts.foldlM (fun e t => e.addOutput <$> OutputVariable.ofTable r t) e

/-- Adds the blocks that tables describe, in order. -/
def addBlocks (e : Engine Float) (ts : List Value) : Except Error (Engine Float) :=
  ts.foldlM (fun e t => e.addBlock <$> RuleBlock.ofTable e.inventory t) e

/-- The variables and blocks of a document, without the operators of the settings. -/
def assemble (r : TermRegistry) (doc : Value) : Except Error (Engine Float) := do
  let e := Engine.empty (settings doc).label
  let e ← addInputs r e (doc.entryItems "input")
  let e ← addOutputs r e (doc.entryItems "output")
  addBlocks e (doc.entryItems "rule_block")

/-- Gives a weighted defuzzifier whose type is automatic another type. -/
def settleType (type : WeightedType) (v : OutputVariable Float) : OutputVariable Float :=
  match v.defuzzifier with
  | some (.weighted m .automatic) => { v with defuzzifier := some (.weighted m type) }
  | _ => v

/-- Applies the type of weighted defuzzifiers that the settings name, if any. -/
def settleTypes (name : Value) (e : Engine Float) : Outcome (Event Float) (Engine Float) :=
  if !name.isPresent then .done e
  else
    match WeightedType.ofValue name with
    | .error error => .stop error e
    | .ok type =>
      .done { e with store := { e.store with outputs := e.outputs.map (settleType type) } }

/-- Where an engine is built strictly, a rule that failed is an error. -/
def checkFailures (strict : Bool) (name : Name) (failures : List RuleBlock.Failure) : Except Error Unit :=
  if strict && !failures.isEmpty then do
    throw (.configuration (.rulesFailed (← name.written) (failures.map RuleBlock.failureText)))
  else .ok ()

/-- Loads all rules and checks what failed. -/
def loadChecked (strict : Bool) (e : Engine Float) : Outcome (Event Float) (Engine Float) :=
  let (e, events, failures) := e.loadRules
  match checkFailures strict e.name failures with
  | .ok () => ⟨e, events, none⟩
  | .error error => ⟨e, events, some error⟩

/-- Reports that an engine is complete. -/
def reportBuilt (e : Engine Float) : Outcome (Event Float) (Engine Float) :=
  .report (.engineBuilt e.name e.inputs.length e.outputs.length e.blocks.length) e

/-- The engine that a document describes. -/
def ofDocument (r : TermRegistry) (strict : Bool) (doc : Value) : Outcome (Event Float) (Engine Float) :=
  let s := settings doc
  match assemble r doc with
  | .error error => .stop error (Engine.empty s.label)
  | .ok e =>
    (((e.configureBy s).andThen
      (settleTypes (s.entryOrNone "type"))).andThen (loadChecked strict)).andThen reportBuilt

end Engine

end FuzzyInference
