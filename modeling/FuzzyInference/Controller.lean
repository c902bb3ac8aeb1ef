import FuzzyInference.Assignment
import FuzzyInference.Engine.Cycle
import FuzzyInference.Engine.Document
import FuzzyInference.Engine.Inspection

/-!
# Controllers

A controller owns an engine that is complete and runs one cycle per call: it assigns the inputs, processes
the engine and answers with the outputs. It counts the cycles that were completed since the last restart,
and stamps every record with the number of the cycle that was begun last.

Inputs and outputs are named. Of several values for one name the last counts, at the place of the first.

## Main definitions

* `Controller.ofDocument`: the controller of an engine that a document describes
* `Controller.process`, `Controller.processRow`: one cycle, for named values and in order of declaration
* `Controller.restart`
-/

namespace FuzzyInference

open Scalar

/-! ## §1 Controllers -/

/-- An engine with the count of its cycles. -/
structure Controller (α : Type) where
  engine : Engine α
  /-- The number of cycles completed since the last restart. -/
  cycle : Nat
  /-- The number of the cycle that was begun last, `-1` before the first. -/
  stamp : Int

namespace Controller

variable {α : Type}

/-- The stamp before the first cycle. -/
def unstamped : Int := -1

/-- The records of events that are reported now. -/
def record (c : Controller α) (events : List (Event α)) : List (Record α) :=
  events.map fun event => ⟨c.stamp, event⟩

def inputNames (c : Controller α) : List Name := c.engine.inputNames

def outputNames (c : Controller α) : List Name := c.engine.outputNames

/-- The values of the outputs, each name once. -/
def outputs (c : Controller α) : List (Name × α) :=
  lastValues (c.engine.outputs.map fun v => (v.name, v.value))

/-- Runs a step of the engine, outside the cycles that the controller counts. -/
def onEngine (c : Controller α) (step : Engine α → Outcome (Event α) (Engine α)) :
    Outcome (Record α) (Controller α) :=
  let o := step c.engine
  ⟨{ c with engine := o.state }, c.record o.events, o.error⟩

variable [Scalar α]

/-- Assigns inputs in order, until a name is unknown. -/
def assignInputs (inputs : List (Name × α)) (e : Engine α) : Outcome (Event α) (Engine α) :=
  Outcome.each (fun p e =>
    match e.setInputValue (.ofName p.1) p.2 with
    | .ok e => .done e
    | .error error => .stop error e) inputs e

/-- What is reported of a cycle that was stopped. -/
def failureEvents (cycle : Nat) (error : Error) : List (Event α) :=
  if error.isFuzzy then [.cycleFailed cycle] else []

/-- Runs one cycle with values for some inputs; the others keep theirs. -/
def process (c : Controller α) (inputs : List (Name × α)) : Outcome (Record α) (Controller α) :=
  let inputs := lastValues inputs
  -- the stamp stays when the cycle fails, and then names the failed cycle
  let c := { c with stamp := c.cycle }
  let o := ((Outcome.report (.controllerCycleStarted (Engine.shownValues inputs)) c.engine).andThen
    (assignInputs inputs)).andThen Engine.process
  let c := { c with engine := o.state }
  match o.error with
  | some error => ⟨c, c.record (o.events ++ failureEvents c.cycle error), some error⟩
  | none =>
    ⟨{ c with cycle := c.cycle + 1 },
      c.record (o.events ++ [.controllerCycleFinished (Engine.shownValues c.outputs)]), none⟩

/-- Runs one cycle with one value for each input, in the order of declaration. -/
def processRow (c : Controller α) (values : List α) : Outcome (Record α) (Controller α) :=
  if values.length = c.inputNames.length then c.process (c.inputNames.zip values)
  else .stop (.configuration (.rowSize (c.inputNames.map Name.asText) values.length)) c

/-- Restarts the engine and the count of cycles. -/
def restart (c : Controller α) : Outcome (Record α) (Controller α) :=
  ⟨{ c with engine := c.engine.restart, cycle := 0 }, c.record [.controllerRestarted], none⟩

/-! ## §2 Building -/

/-- What is reported of an engine that is taken over. -/
def readyEvents (e : Engine α) : Except Fault (List (Event α)) := do
  let status ← e.status
  return (if e.isReady then [] else [.notReady e.name status]) ++ [.controllerReady]

/-- The controller of an engine that a document describes. -/
def ofDocument (r : TermRegistry) (doc : Value) : Outcome (Record Float) (Controller Float) :=
  let o := Engine.ofDocument r true doc
  let c : Controller Float := ⟨o.state, 0, unstamped⟩
  match o.error with
  | some error => ⟨c, c.record o.events, some error⟩
  | none =>
    match readyEvents c.engine with
    | .ok events => ⟨c, c.record (o.events ++ events), none⟩
    | .error f => ⟨c, c.record o.events, some (.fault f)⟩

end Controller

end FuzzyInference
