import FuzzyInference.Activation
import FuzzyInference.Defuzzifier

/-!
# Events

What an engine, its controller and the command line report. An event keeps its data; the line that a log
shows is made from it at the end. Every event has a level and a channel, the stage of the engine that
reports it.

## Main definitions

* `Event`: the events over a type of scalars
* `Event.level`, `Event.channel`, `Event.message`
* `Record`: an event with the cycle in which it was reported
* `Record.line`: the line of a log
-/

namespace FuzzyInference

open Scalar

/-- How much an event matters. -/
inductive Level
  | debug | info | warning | error | critical
deriving DecidableEq, Repr

def Level.text : Level → String
  | debug => "DEBUG"
  | info => "INFO"
  | warning => "WARNING"
  | error => "ERROR"
  | critical => "CRITICAL"

/-- The stages that report events. -/
inductive Channel
  | main | controller | engine | ruleBlock | rule | outputVariable | defuzzifier
deriving DecidableEq, Repr

namespace Channel

def name : Channel → String
  | main => "main"
  | controller => "controller"
  | engine => "engine"
  | ruleBlock => "rule_block"
  | rule => "rule"
  | outputVariable => "variable"
  | defuzzifier => "defuzzifier"

/-- All channels. -/
def all : List Channel := [main, controller, engine, ruleBlock, rule, outputVariable, defuzzifier]

end Channel

/-- The names of the operators that an engine was configured with; an empty name stands for none. -/
structure OperatorNames where
  conjunction : String
  disjunction : String
  implication : String
  aggregation : String
  defuzzifier : String
  activation : String
deriving DecidableEq, Repr

/-- What happened. -/
inductive Event (α : Type)
  | loggingReady
  | applicationStarted
  | documentLoaded (path : String)
  | engineInterface (inputs outputs : List String)
  | rowEvaluated (inputs outputs : List (String × α))
  | fuzzyFailure (message : String)
  | documentMissing (path : String)
  | applicationFinished
  | documentRequested (path : String)
  | notReady (engine : Name) (status : String)
  | controllerReady
  | controllerCycleStarted (inputs : List (String × α))
  | controllerCycleFinished (outputs : List (String × α))
  | cycleFailed (cycle : Nat)
  | controllerRestarted
  | engineConfigured (engine : Name) (names : OperatorNames)
  | engineBuilt (engine : Name) (inputs outputs blocks : Nat)
  | cycleStarted (engine : Name) (inputs : List (String × α))
  | cycleFinished (engine : Name) (outputs : List (String × α))
  | ruleFailed (block : Name) (index : Nat) (fault : RuleFault)
  | blockLoaded (block : Name) (loaded rules : Nat)
  | blockActivated (block : Name) (method : Activation α)
  | noRuleFired (block : Name)
  | ruleLoaded (rule : String)
  | defuzzified (name : String) (value : α) (fuzzyOutput : Aggregated α)
  | notice (defuzzifier set : String) (n : Defuzzifier.Notice α)

namespace Event

variable {α : Type}

def channel : Event α → Channel
  | loggingReady | applicationStarted | documentLoaded _ | engineInterface .. | rowEvaluated ..
  | fuzzyFailure _ | documentMissing _ | applicationFinished => .main
  | documentRequested _ | notReady .. | controllerReady | controllerCycleStarted _
  | controllerCycleFinished _ | cycleFailed _ | controllerRestarted => .controller
  | engineConfigured .. | engineBuilt .. | cycleStarted .. | cycleFinished .. => .engine
  | ruleFailed .. | blockLoaded .. | blockActivated .. | noRuleFired _ => .ruleBlock
  | ruleLoaded _ => .rule
  | defuzzified .. => .outputVariable
  | notice .. => .defuzzifier

def level : Event α → Level
  | fuzzyFailure _ | documentMissing _ => .critical
  | cycleFailed _ | ruleFailed .. => .error
  | notReady .. | notice _ _ (.unboundedRange ..) | notice _ _ .zeroWeights => .warning
  | controllerCycleStarted _ | controllerCycleFinished _ | cycleStarted .. | cycleFinished ..
  | blockActivated .. | noRuleFired _ | ruleLoaded _ | defuzzified .. | notice _ _ .empty => .debug
  | _ => .info

/-- The name of the engine or the block that an event is about. -/
def owner? : Event α → Option Name
  | notReady name _ | engineConfigured name _ | engineBuilt name .. | cycleStarted name _
  | cycleFinished name _ | ruleFailed name .. | blockLoaded name .. | blockActivated name _
  | noRuleFired name => some name
  | _ => none

/-- The name that the event is about is short enough to be written. -/
def isWritable (e : Event α) : Bool := (e.owner?.map Name.isWritable).getD true

/-- A name in angle brackets. -/
def quotedName (name : Name) : String := bracketed name.asText

/-- Names with their values. -/
def assignments (separator : String) (values : List (String × Float)) : String :=
  String.intercalate ", " (values.map fun (name, x) => name ++ separator ++ text defaultDecimals x)

/-- Names, or a word for none. -/
def orNone (name : String) : String := if name.isEmpty then "none" else name

def noticeMessage (defuzzifier set : String) : Defuzzifier.Notice Float → String
  | .empty => s!"{defuzzifier}: empty fuzzy output {bracketed set}"
  | .unboundedRange minimum maximum =>
    let low := text defaultDecimals minimum
    let high := text defaultDecimals maximum
    s!"{defuzzifier}: cannot integrate over non-finite range [{low}, {high}]"
  | .zeroWeights => s!"{defuzzifier}: sum of weights is zero for {bracketed set}"

/-- The text of an event. -/
def message : Event Float → String
  | loggingReady => "Logging system initialized."
  | applicationStarted => "Application starting..."
  | documentLoaded path => s!"Configuration file '{path}' loaded."
  | engineInterface inputs outputs =>
    "Inputs: " ++ String.intercalate ", " inputs ++ " -> Outputs: " ++ String.intercalate ", " outputs
  | rowEvaluated inputs outputs => assignments "= " inputs ++ " -> " ++ assignments "= " outputs
  | fuzzyFailure message => "Fuzzy controller error: " ++ message
  | documentMissing path =>
    s!"Cannot read configuration: [Errno 2] No such file or directory: {Text.quoted path}"
  | applicationFinished => "Application finished."
  | documentRequested path => s!"Loading configuration file '{path}'."
  | notReady engine status => s!"Engine {quotedName engine} is not ready:\n{status}"
  | controllerReady => "FLC Controller initialized and ready."
  | controllerCycleStarted inputs => "--- FLC Cycle Start (" ++ assignments "= " inputs ++ ") ---"
  | controllerCycleFinished outputs => "--- FLC Cycle End (" ++ assignments "= " outputs ++ ") ---"
  | cycleFailed cycle => s!"FLC cycle {cycle} failed"
  | controllerRestarted => "FLC Controller restarted."
  | engineConfigured engine names =>
    s!"Engine {quotedName engine} configured: conjunction={orNone names.conjunction} " ++
      s!"disjunction={orNone names.disjunction} implication={orNone names.implication} " ++
      s!"aggregation={orNone names.aggregation} defuzzifier={orNone names.defuzzifier} " ++
      s!"activation={orNone names.activation}"
  | engineBuilt engine inputs outputs blocks =>
    s!"Engine {quotedName engine} built: {inputs} inputs, {outputs} outputs, {blocks} rule blocks"
  | cycleStarted engine inputs => s!"process {quotedName engine}: " ++ assignments "=" inputs
  | cycleFinished engine outputs => s!"process {quotedName engine} -> " ++ assignments "=" outputs
  | ruleFailed block index fault =>
    s!"Rule block {quotedName block}, rule {index}: {fault.message}"
  | blockLoaded block loaded rules => s!"Rule block {quotedName block}: {loaded} of {rules} rules loaded"
  | blockActivated block method => s!"Activating {quotedName block} with {method.describe}"
  | noRuleFired block => s!"Proportional activation of {quotedName block}: no rule fired"
  | ruleLoaded rule => "Loaded rule: " ++ rule
  | defuzzified name value fuzzyOutput =>
    s!"{name}= {text defaultDecimals value} <- {fuzzyOutput.text}"
  | notice defuzzifier set n => noticeMessage defuzzifier set n

end Event

/-! ## Records -/

/-- An event with the number of the cycle in which it was reported; `-1` before the first one. -/
structure Record (α : Type) where
  cycle : Int
  event : Event α

namespace Record

/-- The number of a cycle with at least six characters, the sign included. -/
def cycleText (cycle : Int) : String :=
  let digits := Nat.toDigits 10 cycle.natAbs
  let sign : List Char := if cycle < 0 then ['-'] else []
  String.ofList (sign ++ List.replicate (6 - sign.length - digits.length) '0' ++ digits)

/-- The line of a log, which is several lines when the message is. -/
def line (r : Record Float) : String :=
  cycleText r.cycle ++ " | " ++ r.event.level.text ++ " | " ++ r.event.channel.name ++ " | " ++
    r.event.message

end Record

end FuzzyInference
