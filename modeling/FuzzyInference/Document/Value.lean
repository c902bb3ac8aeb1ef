import FuzzyInference.Document.Moment
import FuzzyInference.Error
import FuzzyInference.Scalar.Floating
import FuzzyInference.Text.Quoted

/-!
# Document values

A configuration is a document of nested tables and lists. Its values have no fixed types: a number may be
given as a text, a whole number for a scalar, one value for a list. This module reads what is needed out of
a value, and describes values in messages.

## Main definitions

* `Value`: the values of a document
* `Value.asText`, `Value.shown`: a value in a message, and inside a list
* `Value.written`: the text of a value that is short enough to be written
* `Value.toScalar`, `Value.toInt`: the number that a value stands for
* `Value.same`: the values that count as one
-/

namespace FuzzyInference

open Scalar

/-- A value of a configuration document. -/
inductive Value
  | none
  | bool (b : Bool)
  | int (n : Int)
  | float (x : Float)
  | text (s : String)
  | moment (m : Moment)
  | list (items : List Value)
  | table (entries : List (String × Value))
deriving Inhabited, Repr

namespace Value

/-! ## §1 Descriptions -/

mutual

/-- The value as it is shown inside a list. -/
def shown : Value → String
  | none => "None"
  | bool b => Text.truth b
  | int n => toString n
  | float x => Decimal.shortestText x
  | text s => Text.quoted s
  | moment m => m.shown
  | list items => "[" ++ String.intercalate ", " (shownItems items) ++ "]"
  | table entries => "\x7b" ++ String.intercalate ", " (shownEntries entries) ++ "\x7d"

def shownItems : List Value → List String
  | [] => []
  | v :: rest => shown v :: shownItems rest

def shownEntries : List (String × Value) → List String
  | [] => []
  | (key, v) :: rest => (Text.quoted key ++ ": " ++ shown v) :: shownEntries rest

end

/-- The value as a text of its own: a text is itself. -/
def asText : Value → String
  | text s => s
  | moment m => m.text
  | v => v.shown

mutual

/-- Every whole number in the value is short enough to be written. -/
def isWritable : Value → Bool
  | int n => Decimal.isWritable n
  | list items => areWritable items
  | table entries => areEntriesWritable entries
  | _ => true

def areWritable : List Value → Bool
  | [] => true
  | v :: rest => isWritable v && areWritable rest

def areEntriesWritable : List (String × Value) → Bool
  | [] => true
  | (_, v) :: rest => isWritable v && areEntriesWritable rest

end

/-- The value as a text of its own, unless a whole number in it is too long. -/
def written (v : Value) : Except Fault String := Decimal.writtenWhen v.isWritable v.asText

/-- The values as words of one text. -/
def writtenWords (vs : List Value) : Except Fault String := Text.unwords <$> vs.mapM written

/-! ## §2 Truth, entries and items -/

/-- Nothing, false, zero and everything empty count as absent. -/
def isPresent : Value → Bool
  | none => false
  | bool b => b
  | int n => n != 0
  | float x => x != 0.0
  | text s => !s.isEmpty
  | moment _ => true
  | list items => !items.isEmpty
  | table entries => !entries.isEmpty

/-- The entry of a table. -/
def entry? (v : Value) (key : String) : Option Value :=
  match v with
  | table entries => entries.lookup key
  | _ => Option.none

/-- The values that a value consists of: the items of a list, the characters of a text, the keys of a
table. -/
def items : Value → List Value
  | list vs => vs
  | text s => s.toList.map fun c => text (String.singleton c)
  | table entries => entries.map fun (key, _) => text key
  | _ => []

/-- The items of an entry, none if it is absent. -/
def entryItems (v : Value) (key : String) : List Value := ((v.entry? key).map items).getD []

/-- The truth of an entry, with a default. -/
def entryFlag (v : Value) (key : String) (default : Bool) : Bool :=
  ((v.entry? key).map isPresent).getD default

/-- The text of a value that names something; what counts as absent names nothing. -/
def nameText (v : Value) : Except Fault String := if v.isPresent then v.written else .ok ""

/-- The text of the name in an entry. -/
def entryName (v : Value) (key : String) : Except Fault String := ((v.entry? key).getD none).nameText

/-! ## §3 Numbers -/

/-- The scalar that a text denotes. -/
def scalarOfText (s : String) : Except Error Float :=
  let trimmed := Text.trim s
  match read? trimmed with
  | some x => .ok x
  | Option.none => .error (.configuration (.notScalar trimmed))

/-- The scalar that a value stands for. Whole numbers beyond the scalars and truth values are refused. -/
def toScalar : Value → Except Error Float
  | bool b => .error (.configuration (.booleanScalar b))
  | int n =>
    let x := Decimal.floatOfInt n
    if x.isInf then .error (.fault .overflow) else .ok x
  | float x => .ok x
  | v => do scalarOfText (← v.written)

/-- The scalars that a value stands for: the words of a text, or the items of a list. -/
def toScalars : Value → Except Error (List Float)
  | text s => (Text.words s).mapM scalarOfText
  | v => v.items.mapM toScalar

/-- A scalar without its fractional part. -/
def truncated (x : Float) : Except Fault Int :=
  match Decimal.truncate? x with
  | some n => .ok n
  | Option.none => .error (if x.isInf then .overflow else .notWhole)

/-- The whole number that a value stands for. -/
def toInt : Value → Except Fault Int
  | bool b => .ok (if b then 1 else 0)
  | int n => .ok n
  | float x => truncated x
  | text s =>
    match Decimal.readInt? s with
    | some n => .ok n
    | Option.none => .error .notWhole
  | _ => .error .notWhole

/-! ## §4 Likeness -/

/-- The whole number that a value is; a truth value is one or zero. -/
def whole? : Value → Option Int
  | bool b => some (if b then 1 else 0)
  | int n => some n
  | _ => Option.none

/-- A value that is no floating-point number is the number of one. -/
def sameNumber (v : Value) (x : Float) : Bool :=
  match v.whole? with
  | some n => Decimal.isInt x n
  | Option.none => false

mutual

/-- Two values count as one: numbers that are equal, and everything else that is alike. -/
def same : Value → Value → Bool
  | none, none => true
  | text s, text t => s == t
  | moment m, moment n => m.same n
  | list vs, list ws => sameItems vs ws
  | table es, table fs => es.length == fs.length && sameEntries es fs
  | float x, float y => x == y
  | float x, w => w.sameNumber x
  | v, float y => v.sameNumber y
  | v, w =>
    match v.whole?, w.whole? with
    | some m, some n => m == n
    | _, _ => false

def sameItems : List Value → List Value → Bool
  | [], [] => true
  | v :: vs, w :: ws => same v w && sameItems vs ws
  | _, _ => false

def sameEntries : List (String × Value) → List (String × Value) → Bool
  | [], _ => true
  | (key, v) :: rest, entries =>
    (match entries.lookup key with
      | some w => same v w
      | Option.none => false) && sameEntries rest entries

end

end Value

end FuzzyInference
