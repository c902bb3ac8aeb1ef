/-!
# Faults

The reasons for which a single elementary step has no result: an arithmetic operation outside its
domain, a text that is no whole number, an index outside a list. A fault says nothing about the fuzzy
model in which it arose; errors that do are in `FuzzyInference.Error`.
-/

namespace FuzzyInference

/-- Why an elementary step has no result. -/
inductive Fault
  /-- A quotient by zero, or zero raised to a negative power. -/
  | zeroDivision
  /-- A result too large for the scalars, an infinite value where a whole number is needed, or a position
  too large for any list. -/
  | overflow
  /-- An argument outside the domain of a real function. -/
  | domain
  /-- A value or text that denotes no whole number. -/
  | notWhole
  /-- A number of decimals that is negative or too large. -/
  | decimals
  /-- A whole number with more digits than are read and written. -/
  | digits
  /-- A number of samples that no list can have. -/
  | sampleCount
  /-- More samples than memory holds. -/
  | memory
  /-- The greatest of no samples. -/
  | noSamples
  /-- A position outside a list. -/
  | index
  /-- A table that lacks an entry it must have. -/
  | missingEntry
deriving DecidableEq, Repr

end FuzzyInference
