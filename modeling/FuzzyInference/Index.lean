import FuzzyInference.Text.Truth

/-!
# Indices

The index by which a member of a list is asked for, as it was given. It is a whole number, and a truth value
may stand for one or zero. What an index counts as decides which member is meant; messages show the index as
it was given.

## Main definitions

* `Index.toInt`: the number that an index counts as
* `Index.text`: the index in a message
-/

namespace FuzzyInference

/-- An index as it was given. -/
inductive Index
  | number (i : Int)
  /-- A truth value, which counts as one or zero. -/
  | truth (b : Bool)
deriving DecidableEq, Repr

namespace Index

/-- The number that the index counts as. -/
def toInt : Index → Int
  | number i => i
  | truth b => if b then 1 else 0

/-- The index in a message. -/
def text : Index → String
  | number i => toString i
  | truth b => Text.truth b

@[simp] theorem toInt_number (i : Int) : (number i).toInt = i := rfl

@[simp] theorem text_number (i : Int) : (number i).text = toString i := rfl

end Index

end FuzzyInference
