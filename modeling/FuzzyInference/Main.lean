import FuzzyInference.CommandLine
import FuzzyInference.Options

/-!
# The program

Reads the document that the arguments name, runs, and writes a log for every channel. Records of the main
channel also go to the console, unless they are only of interest for debugging.
-/

namespace FuzzyInference

/-- The text of the file at a path, if there is one. -/
def documentAt (path : String) : IO (Option String) := do
  try return some (← IO.FS.readFile path)
  catch _ => return none

/-- Writes the log of every channel into a directory. -/
def writeLogs (directory : String) (records : List (Record Float)) : IO Unit := do
  IO.FS.createDirAll directory
  for channel in Channel.all do
    IO.FS.writeFile (directory ++ "/" ++ channel.name ++ ".log") (CommandLine.logText records channel)

/-- Writes the records of the main channel to the console. -/
def writeConsole (records : List (Record Float)) : IO Unit := do
  for r in records do
    if r.event.channel == .main && r.event.level != .debug && r.event.isWritable then IO.eprintln r.line

end FuzzyInference

open FuzzyInference in
def main (arguments : List String) : IO UInt32 := do
  match Options.parse arguments with
  | .error .help =>
    IO.println UsageError.help.message
    return 0
  | .error e =>
    IO.eprintln e.message
    return 2
  | .ok o =>
    let document ← documentAt o.document
    let result := CommandLine.run TermRegistry.standard o.document document o.rows
    writeLogs o.logDirectory result.records
    writeConsole result.records
    match result.exit with
    | .ok code => return UInt32.ofNat code
    | .error e =>
      IO.eprintln (repr e)
      return 1
