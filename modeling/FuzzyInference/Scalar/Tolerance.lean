import FuzzyInference.Scalar.Basic

/-!
# Tolerant comparison

A degree or a crisp value is the result of rounded arithmetic, so the engine never tests two of them for
equality: scalars closer than `tolerance` count as equal, and every comparison with a threshold goes
through the five tests below. `nan` is near `nan` and each infinity is near itself, but nothing else is
near them.
-/

namespace FuzzyInference.Scalar

variable {α : Type} [Scalar α]

/-- The distance below which two scalars count as equal. -/
def tolerance : α := 1e-9

/-- Both scalars are the same, both are `nan`, or they are closer than `eps`. -/
def nearWithin (eps a b : α) : Bool :=
  a == b || (isNaN a && isNaN b) || decide (abs (a - b) < eps)

/-- Less, and not within `eps`. -/
def belowWithin (eps a b : α) : Bool := !nearWithin eps a b && decide (a < b)

/-- Less, or within `eps`. -/
def atMostWithin (eps a b : α) : Bool := nearWithin eps a b || decide (a < b)

/-- Greater, and not within `eps`. -/
def aboveWithin (eps a b : α) : Bool := !nearWithin eps a b && decide (b < a)

/-- Greater, or within `eps`. -/
def atLeastWithin (eps a b : α) : Bool := nearWithin eps a b || decide (b < a)

/-- Equal up to the tolerance. -/
def near (a b : α) : Bool := nearWithin tolerance a b

/-- Less by more than the tolerance. -/
def below (a b : α) : Bool := belowWithin tolerance a b

/-- Less, or equal up to the tolerance. -/
def atMost (a b : α) : Bool := atMostWithin tolerance a b

/-- Greater by more than the tolerance. -/
def above (a b : α) : Bool := aboveWithin tolerance a b

/-- Greater, or equal up to the tolerance. -/
def atLeast (a b : α) : Bool := atLeastWithin tolerance a b

end FuzzyInference.Scalar
