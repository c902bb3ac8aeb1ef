import FuzzyInference.RuleBlock

/-!
# Engines

An engine owns variables and rule blocks. Variables are looked up by name or position; of several with one
name the first counts, and inputs come before outputs.

## Main definitions

* `Engine`: the variables, the blocks and the state of evaluation
* `Engine.addInput`, `Engine.insertInput`, `Engine.removeInput`, and the same for outputs and blocks
* `Engine.input`, `Engine.output`, `Engine.block`, `Engine.variableNamed`: looking up
-/

namespace FuzzyInference

/-- Whether a cycle was completed since the last restart. -/
inductive EngineState
  | idle | evaluated
deriving DecidableEq, Repr

def EngineState.name : EngineState → String
  | idle => "Idle"
  | evaluated => "Evaluated"

/-- A fuzzy model. -/
structure Engine (α : Type) where
  name : Name
  store : Variables α
  /-- The rule blocks in the order of evaluation. -/
  blocks : List (RuleBlock α)
  state : EngineState
deriving Repr

/-- A variable of either kind. -/
inductive AnyVariable (α : Type)
  | input (v : Variable α)
  | output (v : OutputVariable α)

namespace AnyVariable

variable {α : Type}

/-- What variables of both kinds have in common. -/
def base : AnyVariable α → Variable α
  | input v => v
  | output v => v.toVariable

variable [Scalar α]

/-- The variable in one line. -/
def text : AnyVariable α → String
  | input v => v.inputText
  | output v => v.text

end AnyVariable

namespace Engine

variable {α : Type}

/-- An engine without variables and blocks. -/
def empty (name : Name) : Engine α := ⟨name, .none, [], .idle⟩

def inputs (e : Engine α) : List (Variable α) := e.store.inputs

def outputs (e : Engine α) : List (OutputVariable α) := e.store.outputs

/-- What terms see of the engine. -/
def surroundings (e : Engine α) : Option (Surroundings α) := some e.store.surroundings

/-- What rules can speak of. -/
def vocabulary (e : Engine α) : Vocabulary := e.store.vocabulary

/-- All variables with their terms. -/
def inventory (e : Engine α) : Vocabulary := e.store.inventory

/-! ## §1 Names -/

def inputNames (e : Engine α) : List Name := e.inputs.map fun v => v.name

def outputNames (e : Engine α) : List Name := e.outputs.map fun v => v.name

def blockNames (e : Engine α) : List Name := e.blocks.map RuleBlock.name

/-- The names of all variables, inputs before outputs. -/
def variableNames (e : Engine α) : List Name := e.inputNames ++ e.outputNames

/-! ## §2 Looking up -/

/-- The input of a name or at a position. -/
def input (e : Engine α) (key : Key) : Except Error (Variable α) :=
  Collection.inputVariables.get (fun v => v.name) e.inputs key

/-- The output of a name or at a position. -/
def output (e : Engine α) (key : Key) : Except Error (OutputVariable α) :=
  Collection.outputVariables.get (fun v => v.name) e.outputs key

/-- The index of the block of a name or at a position. -/
def blockIndex (e : Engine α) (key : Key) : Except Error Nat :=
  Collection.ruleBlocks.find RuleBlock.name e.blocks key

/-- The block of a name or at a position. -/
def block (e : Engine α) (key : Key) : Except Error (RuleBlock α) :=
  Collection.ruleBlocks.get RuleBlock.name e.blocks key

def hasInput (e : Engine α) (name : Name) : Bool := e.inputs.any fun v => v.name == name

def hasOutput (e : Engine α) (name : Name) : Bool := e.outputs.any fun v => v.name == name

/-- The first variable of a name, inputs before outputs. -/
def variableNamed (e : Engine α) (name : Name) : Except Error (AnyVariable α) :=
  match e.inputs.find? fun v => v.name == name with
  | some v => .ok (.input v)
  | none =>
    match e.outputs.find? fun v => v.name == name with
    | some v => .ok (.output v)
    | none => .error (.configuration (.variableNotFound name.asText))

/-! ## §3 Assembling -/

/-- Adds an input at the end. -/
def addInput (e : Engine α) (v : Variable α) : Engine α :=
  { e with store := e.store.placeInput v fun v vs => vs ++ [v] }

/-- Inserts an input at a position. -/
def insertInput (e : Engine α) (v : Variable α) (i : Int) : Except Fault (Engine α) := do
  Position.check i
  return { e with store := e.store.placeInput v fun v vs => Position.insert vs i v }

/-- Adds an output at the end. -/
def addOutput (e : Engine α) (v : OutputVariable α) : Engine α :=
  { e with store := e.store.placeOutput v fun v vs => vs ++ [v] }

/-- Inserts an output at a position. -/
def insertOutput (e : Engine α) (v : OutputVariable α) (i : Int) : Except Fault (Engine α) := do
  Position.check i
  return { e with store := e.store.placeOutput v fun v vs => Position.insert vs i v }

/-- Adds a block at the end. -/
def addBlock (e : Engine α) (b : RuleBlock α) : Engine α := { e with blocks := e.blocks ++ [b] }

/-- Inserts a block at a position. -/
def insertBlock (e : Engine α) (b : RuleBlock α) (i : Int) : Except Fault (Engine α) := do
  Position.check i
  return { e with blocks := Position.insert e.blocks i b }

/-- Removes an input. Rules loaded before still read it. -/
def removeInput (e : Engine α) (key : Key) : Except Error (Variable α × Engine α) := do
  let i ← Collection.inputVariables.find (fun v => v.name) e.inputs key
  let v ← e.input key
  return (v, { e with store := { e.store with
    inputs := e.inputs.eraseIdx i
    removedInputs := e.store.removedInputs ++ [v] } })

/-- Removes an output. Rules loaded before still read and write it. -/
def removeOutput (e : Engine α) (key : Key) : Except Error (OutputVariable α × Engine α) := do
  let i ← Collection.outputVariables.find (fun v => v.name) e.outputs key
  let v ← e.output key
  return (v, { e with store := { e.store with
    outputs := e.outputs.eraseIdx i
    removedOutputs := e.store.removedOutputs ++ [v] } })

/-- Removes a block. -/
def removeBlock (e : Engine α) (key : Key) : Except Error (RuleBlock α × Engine α) := do
  let i ← e.blockIndex key
  let b ← e.block key
  return (b, { e with blocks := e.blocks.eraseIdx i })

/-! ## §4 Changing members -/

/-- Changes the variable of an identity. -/
def modifyVariable (e : Engine α) (v : AnyVariable α) (f : Variable α → Variable α) : Engine α :=
  match v with
  | .input v => { e with store := e.store.modifyInput v.id f }
  | .output v => { e with store := e.store.modifyOutput v.id fun w => w.modify f }

/-- Changes an output. -/
def modifyOutput (e : Engine α) (v : OutputVariable α) (f : OutputVariable α → OutputVariable α) :
    Engine α :=
  { e with store := e.store.modifyOutput v.id f }

/-- Changes the block at an index. -/
def modifyBlock (e : Engine α) (i : Nat) (f : RuleBlock α → RuleBlock α) : Engine α :=
  { e with blocks := e.blocks.modify i f }

variable [Scalar α]

/-- Assigns the value of an input. -/
def setInputValue (e : Engine α) (key : Key) (x : α) : Except Error (Engine α) := do
  let v ← e.input key
  return { e with store := e.store.modifyInput v.id fun v => v.assign x }

/-- The value of an output. -/
def outputValue (e : Engine α) (key : Key) : Except Error α := do
  return (← e.output key).value

/-- Puts a changed term in the place of the one with its identity in a variable. -/
def replaceTerm (e : Engine α) (v : AnyVariable α) (t : Term α) : Engine α :=
  match v with
  | .input v => { e with store := e.store.modifyInput v.id fun v => v.replaceTerm t }
  | .output v => e.modifyOutput v fun v => v.replaceTerm t

/-! ## §5 Loading -/

/-- Loads the rules of blocks against a vocabulary. -/
def loadBlocks (v : Vocabulary) :
    List (RuleBlock Float) → List (RuleBlock Float) × List (Event Float) × List RuleBlock.Failure
  | [] => ([], [], [])
  | b :: rest =>
    let (b, events, failures) := b.loadAll v
    let (bs, events', failures') := loadBlocks v rest
    (b :: bs, events ++ events', failures ++ failures')

/-- Loads the rules of every block. The failures are listed in the order of the rules. -/
def loadRules (e : Engine Float) : Engine Float × List (Event Float) × List RuleBlock.Failure :=
  let (blocks, events, failures) := loadBlocks e.vocabulary e.blocks
  ({ e with blocks }, events, failures)

/-! ## §6 Text -/

/-- The lines of a term inside the text of an engine. -/
def termLines (v : Variable Float) : List String := v.terms.map fun t => "    " ++ t.text

/-- The line of an output inside the text of an engine. -/
def outputLine (v : OutputVariable Float) : String :=
  let defuzzifier := (v.defuzzifier.map Defuzzifier.text).getD "None"
  let aggregation := (v.fuzzyOutput.aggregation.map SNorm.name).getD "none"
  "  " ++ v.text ++ " defuzzifier=" ++ defuzzifier ++ " aggregation=" ++ aggregation

/-- The lines that describe the engine. -/
def text (e : Engine Float) : String :=
  String.intercalate "\n" (
    ["Engine: " ++ e.name.asText] ++
    e.inputs.flatMap (fun v => ("  " ++ v.inputText) :: termLines v) ++
    e.outputs.flatMap (fun v => outputLine v :: termLines v.toVariable) ++
    e.blocks.flatMap (fun b => (Text.lines b.text).map ("  " ++ ·)))

/-- The name of a variable and those of its terms are short enough to be written. -/
def isVariableWritable (v : Variable Float) : Bool :=
  v.name.isWritable && v.terms.all fun t => t.name.isWritable

/-- Every name and number that the text of the engine shows is short enough to be written. -/
def isWritable (e : Engine Float) : Bool :=
  e.name.isWritable &&
  e.inputs.all isVariableWritable &&
  e.outputs.all (fun v =>
    isVariableWritable v.toVariable && (v.defuzzifier.map Defuzzifier.isWritable).getD true) &&
  e.blocks.all fun b => b.name.isWritable

/-- The lines that describe the engine, unless something in them is too long to be written. -/
def written (e : Engine Float) : Except Fault String := Decimal.writtenWhen e.isWritable e.text

end Engine

end FuzzyInference
