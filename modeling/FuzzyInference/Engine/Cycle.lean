import FuzzyInference.Engine.Basic

/-!
# Inference cycles

A cycle computes the outputs from the inputs in three steps: the fuzzy outputs are cleared, the enabled
blocks are activated in order, and the outputs are defuzzified in order. A block sees the fuzzy outputs
that the blocks before it wrote, and a formula of an output sees the values of the outputs before it.

## Main definitions

* `Engine.process`: one cycle
* `Engine.restart`: forgets all values
-/

namespace FuzzyInference

open Scalar

namespace Engine

variable {α : Type} [Scalar α]

/-- Forgets the terms that were activated for outputs in the cycle before. -/
def clearOutputs (vs : Variables α) : Variables α :=
  { vs with outputs := vs.outputs.map OutputVariable.clearFuzzyOutput }

/-- Activates blocks in order. The blocks after one that is stopped stay as they were. -/
def activateBlocks :
    List (RuleBlock α) → Variables α → Outcome (Event α) (Variables α × List (RuleBlock α))
  | [], vs => .done (vs, [])
  | b :: rest, vs =>
    let o := b.activate vs
    (o.map fun (vs, b) => (vs, b :: rest)).andThen fun (vs, bs) =>
      -- of the blocks so far only the first one has been activated
      (activateBlocks rest vs).map fun (vs, rest) => (vs, bs.take 1 ++ rest)

/-- What defuzzifying an output reports. -/
def defuzzifyEvents (around : Option (Surroundings α)) (v : OutputVariable α) : List (Event α) :=
  if v.isActive then
    match v.defuzzifier with
    | none => []
    | some d =>
      match d.notice? around (.aggregated v.fuzzyOutput) v.minimum v.maximum with
      | none => []
      | some n => [.notice d.name v.fuzzyOutput.name.asText n]
  else []

/-- Defuzzifies an output and reports it. -/
def defuzzifyOutput (around : Option (Surroundings α)) (v : OutputVariable α) :
    Outcome (Event α) (OutputVariable α) :=
  let events := defuzzifyEvents around v
  match v.defuzzify around with
  | (v, .ok ()) => ⟨v, events ++ [.defuzzified v.name.asText v.value v.fuzzyOutput], none⟩
  | (v, .error e) => ⟨v, events, some e⟩

/-- Defuzzifies outputs in order; those before them are already defuzzified. -/
def defuzzifyFrom (vs : Variables α) :
    List (OutputVariable α) → List (OutputVariable α) → Outcome (Event α) (Variables α)
  | before, [] => .done { vs with outputs := before }
  | before, v :: rest =>
    -- formulas see the new values of the outputs before and the old ones of the rest
    let around := ({ vs with outputs := before ++ v :: rest } : Variables α).surroundings
    let o := defuzzifyOutput (some around) v
    (o.map fun v => ({ vs with outputs := before ++ v :: rest } : Variables α)).andThen fun _ =>
      defuzzifyFrom vs (before ++ [o.state]) rest

/-- Defuzzifies every output. -/
def defuzzifyOutputs (vs : Variables α) : Outcome (Event α) (Variables α) :=
  defuzzifyFrom vs [] vs.outputs

/-- Named values as they are reported. -/
def shownValues (values : List (Name × α)) : List (String × α) := values.map fun p => (p.1.asText, p.2)

/-- The crisp values of inputs. -/
def inputValues (vs : Variables α) : List (String × α) := shownValues vs.surroundings.inputs

/-- The crisp values of outputs. -/
def outputValues (vs : Variables α) : List (String × α) := shownValues vs.surroundings.outputs

/-- Activates all blocks, with the fuzzy outputs cleared. -/
def infer (e : Engine α) : Outcome (Event α) (Engine α) :=
  (activateBlocks e.blocks (clearOutputs e.store)).map fun (store, blocks) =>
    { e with store, blocks }

/-- Computes the values of the outputs and completes the cycle. -/
def conclude (e : Engine α) : Outcome (Event α) (Engine α) :=
  ((defuzzifyOutputs e.store).map fun store => { e with store }).andThen fun e =>
    .report (.cycleFinished e.name (outputValues e.store)) { e with state := .evaluated }

/-- One cycle over the current values of the inputs. -/
def process (e : Engine α) : Outcome (Event α) (Engine α) :=
  ((Outcome.report (.cycleStarted e.name (inputValues e.store)) e).andThen infer).andThen conclude

/-- Forgets the values of all variables and what rules did. -/
def restart (e : Engine α) : Engine α :=
  { e with
    store := { e.store with
      inputs := e.store.inputs.map fun v => v.assign nan
      outputs := e.store.outputs.map OutputVariable.clear }
    blocks := e.blocks.map fun b => { b with rules := b.rules.map Rule.deactivate }
    state := .idle }

/-- Activates one block, outside a cycle. -/
def activateBlock (e : Engine α) (i : Nat) : Outcome (Event α) (Engine α) :=
  match e.blocks[i]? with
  | none => .done e
  | some b =>
    (b.activate e.store).map fun (store, b) =>
      { e with store, blocks := e.blocks.set i b }

end Engine

end FuzzyInference
