import FuzzyInference.Text.Digit

/-!
# Arguments of the command line

Arguments are rows of input values and options. An option takes its value from the same argument, after an
equals sign, or from the next argument. A long name may be cut short where only one option can be meant.
Rows may stand before, between or after options, but all of them together. All arguments after two minus
signs are rows.

An argument that starts with a minus sign and names no option is a row when it is nothing but the sign or a
negative number, or when it holds a space.

## Main definitions

* `Argument`: what a single argument is
* `Options.parse`: what the arguments ask for
-/

namespace FuzzyInference

/-! ## §1 Options -/

/-- The kinds of options. -/
inductive OptionKind
  /-- A description of the arguments is asked for. -/
  | help
  /-- The path of the document. -/
  | document
  /-- The directory of the logs. -/
  | logDirectory
deriving DecidableEq, Repr

namespace OptionKind

def all : List OptionKind := [help, document, logDirectory]

/-- The long name of an option. -/
def name : OptionKind → String
  | help => "--help"
  | document => "--config"
  | logDirectory => "--log-dir"

/-- The options whose long names start like this. -/
def candidates (start : List Char) : List OptionKind :=
  all.filter fun kind => start.isPrefixOf kind.name.toList

end OptionKind

/-- Why arguments cannot be used. -/
inductive UsageError
  /-- Unknown options, and rows that are apart from the others. -/
  | unrecognized (arguments : List String)
  | missingValue (kind : OptionKind)
  | needlessValue (kind : OptionKind) (value : String)
  | ambiguous (argument : String) (kinds : List OptionKind)
  /-- Not an error: a description of the arguments is asked for. -/
  | help
deriving DecidableEq, Repr

def UsageError.message : UsageError → String
  | unrecognized arguments => "unrecognized arguments: " ++ String.intercalate " " arguments
  | missingValue kind => s!"argument {kind.name}: expected one argument"
  | needlessValue kind value => s!"argument {kind.name}: ignored explicit argument {value}"
  | ambiguous argument kinds =>
    let names := String.intercalate ", " (kinds.map OptionKind.name)
    s!"ambiguous option: {argument} could match {names}"
  | help => "usage: fuzzy-inference [--help] [--config CONFIG] [--log-dir LOG_DIR] [rows ...]"

/-! ## §2 Arguments -/

/-- What an argument is. -/
inductive Argument
  /-- A row, or the value of the option before it. -/
  | plain (text : String)
  /-- An option, with the value that stands in the same argument. -/
  | option (kind : OptionKind) (value : Option String)
  /-- All further arguments are rows. -/
  | separator
  /-- An argument that starts like an option and is none. -/
  | unknown (text : String)
deriving DecidableEq, Repr

namespace Argument

/-- The text of a separator. -/
def separatorText : String := "--"

/-- A number with a minus sign: digits, or digits with a point and at least one digit after it. A line feed
may follow. -/
def isNegativeNumber : List Char → Bool
  | '-' :: cs =>
    match cs.dropWhile Text.isDigit with
    | '.' :: fraction => startsWithDigit fraction && isEnd (fraction.dropWhile Text.isDigit)
    | rest => startsWithDigit cs && isEnd rest
  | _ => false
where
  startsWithDigit (cs : List Char) : Bool := (cs.head?.map Text.isDigit).getD false
  isEnd (cs : List Char) : Bool := cs.isEmpty || cs == ['\n']

/-- The options of one letter after the first one. The only letter asks for help and takes no value; letters
of other options are not looked at, since help comes before them. -/
def shortOptions : List Char → Argument
  | 'h' :: rest => shortOptions rest
  | '=' :: value => option .help (some (String.ofList value))
  | '-' :: rest => option .help (some (String.ofList ('-' :: rest)))
  | _ => option .help none

/-- The long option that an argument names. -/
def longOption (argument : String) : Except UsageError Argument :=
  let cs := argument.toList
  let value := match cs.dropWhile (· != '=') with
    | [] => none
    | _ :: value => some (String.ofList value)
  match OptionKind.candidates (cs.takeWhile (· != '=')) with
  | [] => .ok (if cs.contains ' ' then plain argument else unknown argument)
  | [kind] => .ok (option kind value)
  | kinds => .error (.ambiguous argument kinds)

/-- What an argument before a separator is. -/
def ofText (argument : String) : Except UsageError Argument :=
  match argument.toList with
  | '-' :: '-' :: _ => longOption argument
  | '-' :: 'h' :: rest => .ok (shortOptions rest)
  | '-' :: c :: rest =>
    let isRow := isNegativeNumber ('-' :: c :: rest) || (c :: rest).contains ' '
    .ok (if isRow then plain argument else unknown argument)
  | _ => .ok (plain argument)

/-- What the arguments are. -/
def ofTexts (arguments : List String) : Except UsageError (List Argument) := do
  let before ← (arguments.takeWhile (· != separatorText)).mapM ofText
  match arguments.dropWhile (· != separatorText) with
  | [] => return before
  | _ :: rows => return before ++ separator :: rows.map plain

end Argument

/-! ## §3 What arguments ask for -/

/-- What the arguments ask for. -/
structure Options where
  /-- The rows of input values. -/
  rows : List String
  /-- The path of the document. -/
  document : String
  /-- The directory of the logs. -/
  logDirectory : String
deriving DecidableEq, Repr

/-- Whether the rows are still to come. -/
inductive RowPhase
  | before | inside | after
deriving DecidableEq, Repr

/-- An option ends the rows. -/
def RowPhase.interrupted : RowPhase → RowPhase
  | before => before
  | inside | after => after

namespace Options

/-- What is used where nothing is asked for. -/
def standard : Options := ⟨[], "config/engine.toml", "logs"⟩

/-- The options with a value for one of them. -/
def set (o : Options) (kind : OptionKind) (value : String) : Options :=
  match kind with
  | .help => o
  | .document => { o with document := value }
  | .logDirectory => { o with logDirectory := value }

/-- Follows arguments in order; the last value of an option counts. Arguments that cannot be used are
collected, because a later one may still ask for help. -/
def follow (o : Options) (phase : RowPhase) (unused : List String) :
    List Argument → Except UsageError Options
  | [] => if unused.isEmpty then .ok o else .error (.unrecognized unused)
  | .option .help none :: _ => .error .help
  | .option .help (some value) :: _ => .error (.needlessValue .help value)
  | .option kind (some value) :: rest => follow (o.set kind value) phase.interrupted unused rest
  | .option kind none :: .plain value :: rest => follow (o.set kind value) phase.interrupted unused rest
  | .option kind none :: _ => .error (.missingValue kind)
  | .unknown text :: rest => follow o phase.interrupted (unused ++ [text]) rest
  | .separator :: rest =>
    if phase = .after then follow o phase (unused ++ [Argument.separatorText]) rest
    else follow o .inside unused rest
  | .plain text :: rest =>
    if phase = .after then follow o phase (unused ++ [text]) rest
    else follow { o with rows := o.rows ++ [text] } .inside unused rest

/-- What arguments ask for. -/
def parse (arguments : List String) : Except UsageError Options := do
  follow standard .before [] (← Argument.ofTexts arguments)

end Options

end FuzzyInference
