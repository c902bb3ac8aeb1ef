import FuzzyInference.Controller
import FuzzyInference.Document.Toml.Reader

/-!
# The command line

The program reads an engine from a document, evaluates it for each row of input values that is given, and
reports what happens. Everything but reading the document and writing the reports is here.

## Main definitions

* `CommandLine.run`: the records and the exit code of a run
* `CommandLine.logText`: the content of a log
-/

namespace FuzzyInference

namespace CommandLine

/-! ## §1 Running -/

/-- What a run leaves behind. -/
structure Run where
  records : List (Record Float)
  /-- The exit code; an error that says nothing about the model has none. -/
  exit : Except Error Nat

/-- A run that ends with an error. One about the model is reported, and the exit code tells of it. -/
def failed (records : List (Record Float)) (stamp : Int) (e : Error) : Run :=
  match e.message? with
  | some message => ⟨records ++ [⟨stamp, .fuzzyFailure message⟩], .ok 1⟩
  | none => ⟨records, .error e⟩

/-- The values of a row: scalars with commas or blanks between them. -/
def rowValues (row : String) : Except Error (List Float) :=
  (Value.text (String.ofList (row.toList.map fun c => if c = ',' then ' ' else c))).toScalars

/-- Evaluates a row. -/
def evaluateRow (row : String) (c : Controller Float) : Outcome (Record Float) (Controller Float) :=
  match rowValues row with
  | .error e => .stop e c
  | .ok values =>
    (c.processRow values).andThen fun c =>
      ⟨c, c.record [.rowEvaluated (Engine.shownValues (c.inputNames.zip values))
        (Engine.shownValues (c.outputNames.zip (c.outputs.map Prod.snd)))], none⟩

/-- Evaluates rows in order, until one is stopped. -/
def evaluateRows (rows : List String) (c : Controller Float) : Outcome (Record Float) (Controller Float) :=
  Outcome.each evaluateRow rows c

/-- What is reported of a controller that was built from a document. -/
def readyEvents (path : String) (c : Controller Float) : List (Event Float) :=
  [.documentLoaded path, .engineInterface (c.inputNames.map Name.asText) (c.outputNames.map Name.asText)]

/-- Runs the program on a document, which is `none` when there is no file at the path. -/
def run (r : TermRegistry) (path : String) (document : Option String) (rows : List String) : Run :=
  let start : List (Record Float) := ([.loggingReady, .applicationStarted, .documentRequested path] :
    List (Event Float)).map fun event => ⟨Controller.unstamped, event⟩
  match document with
  | none => ⟨start ++ [⟨Controller.unstamped, .documentMissing path⟩], .ok 1⟩
  | some text =>
    match Toml.read text with
    | .error e => failed start Controller.unstamped e
    | .ok doc =>
      let built := Controller.ofDocument r doc
      match built.error with
      | some e => failed (start ++ built.events) built.state.stamp e
      | none =>
        let ready := built.state.record (readyEvents path built.state)
        let o := evaluateRows rows built.state
        let records := start ++ built.events ++ ready ++ o.events
        match o.error with
        | some e => failed records o.state.stamp e
        | none => ⟨records ++ o.state.record [.applicationFinished], .ok 0⟩

/-! ## §2 Logs -/

/-- The lines of one channel, as the content of a file. Events that cannot be written are left out. -/
def logText (records : List (Record Float)) (channel : Channel) : String :=
  let shown := records.filter fun r => r.event.channel == channel && r.event.isWritable
  String.join (shown.map fun r => r.line ++ "\n")

end CommandLine

end FuzzyInference
