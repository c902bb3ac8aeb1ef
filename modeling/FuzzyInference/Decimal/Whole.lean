import FuzzyInference.Decimal.Rounding
import FuzzyInference.Fault

/-!
# The length of whole numbers

Whole numbers have any size, but in decimal digits only those of a limited length are read and written.

## Main definitions

* `digitLimit`: the greatest number of digits
* `isWritable`: a whole number is short enough to be written
* `writtenWhen`: a text in which all whole numbers must be short enough
-/

namespace FuzzyInference.Decimal

/-- Whole numbers of more decimal digits are neither read nor written. -/
def digitLimit : Nat := 4300

/-- The whole number is short enough to be written. -/
def isWritable (n : Int) : Bool := n.natAbs < tenTo digitLimit

/-- A text, on the condition that all whole numbers in it are short enough to be written. -/
def writtenWhen (writable : Bool) (text : String) : Except Fault String :=
  if writable then .ok text else .error .digits

end FuzzyInference.Decimal
