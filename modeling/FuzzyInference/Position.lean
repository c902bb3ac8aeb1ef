import FuzzyInference.Name
import FuzzyInference.Word

/-!
# Positions in lists

Members of a model are found by name or by position. A position that is asked for must exist. A position
for removing or looking up a rule may count from the end, with `-1` for the last one, and a position for
inserting is brought into the list. Positions at which a list is changed are machine
words.

## Main definitions

* `Key`: a name, or an index in its place
* `Position.index?`, `Position.insert`: positions that may count from the end
* `Collection.find`, `Collection.get`: looking up by a key
-/

namespace FuzzyInference

/-- A name or a position. -/
inductive Key
  | name (n : Name)
  | position (i : Index)
deriving Repr

namespace Key

/-- How an error shows a key. -/
def text : Key → String
  | name n => n.asText
  | position i => i.text

/-- What a name refers to as a key: a whole number or a truth value is a position. -/
def ofName : Name → Key
  | .other (.int i) => position (.number i)
  | .other (.bool b) => position (.truth b)
  | n => name n

end Key

namespace Position

variable {ι : Type}

/-- Refuses a position at which no list can be changed, however long it is. -/
def check (i : Int) : Except Fault Unit := if Word.holds i then .ok () else .error .overflow

/-- The index that a position means in a list of the given length, if there is one; negative positions count
from the end. -/
def index? (length : Nat) (i : Int) : Option Nat :=
  let j := if i < 0 then i + length else i
  if 0 ≤ j && j < length then some j.toNat else none

/-- The index at which an item is inserted; negative positions count from the end, and positions outside
the list mean its ends. -/
def insertionIndex (length : Nat) (i : Int) : Nat :=
  let j := if i < 0 then i + length else i
  min j.toNat length

/-- The list with one more item. -/
def insert (xs : List ι) (i : Int) (x : ι) : List ι := xs.insertIdx (insertionIndex xs.length i) x

/-- The index that a slice up to a position ends at. -/
def sliceEnd (length : Nat) (i : Int) : Nat := insertionIndex length i

end Position

namespace Collection

variable {ι : Type}

/-- The index of the first member with the name, or of the member at the position. -/
def find (c : Collection) (nameOf : ι → Name) (xs : List ι) (key : Key) : Except Error Nat :=
  match key with
  | .position i =>
    if 0 ≤ i.toInt && i.toInt < xs.length then .ok i.toInt.toNat
    else .error (.configuration (.position c i xs.length))
  | .name n =>
    match xs.findIdx? fun x => nameOf x == n with
    | some i => .ok i
    | none => .error (.configuration (.notFound c n.asText))

/-- The first member with the name, or the member at the position. -/
def get (c : Collection) (nameOf : ι → Name) (xs : List ι) (key : Key) : Except Error ι := do
  let i ← c.find nameOf xs key
  match xs[i]? with
  | some x => return x
  | none => throw (.configuration (.notFound c key.text))

end Collection

end FuzzyInference
