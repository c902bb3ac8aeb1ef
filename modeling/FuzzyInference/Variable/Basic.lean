import FuzzyInference.Defuzzifier
import FuzzyInference.Position

/-!
# Linguistic variables

A variable is a named value in a range, with an ordered list of terms. Input variables get their value from
outside before a cycle. Output variables collect activated terms while rules fire and reduce them to their
value at the end of the cycle.

A rule refers to a variable and a term by identity. A term that was removed from its variable is kept apart,
so that rules loaded before still find it.

## Main definitions

* `Variable`, `OutputVariable`
* `Variable.addTerm`, `Variable.insertTerm`, `Variable.removeTerm`: the terms, names unique
* `OutputVariable.defuzzify`: the value at the end of a cycle
-/

namespace FuzzyInference

open Scalar

/-- A named value in a range, with terms. -/
structure Variable (α : Type) where
  id : Nat
  name : Name
  minimum : α
  maximum : α
  /-- A disabled variable never fires in antecedents and is never written by consequents. -/
  enabled : Bool
  /-- Values that are assigned are brought into the range. -/
  lockValueInRange : Bool
  value : α
  /-- The terms, whose names differ. -/
  terms : List (Term α)
  /-- Terms that were removed. -/
  removedTerms : List (Term α)
  /-- The identity of the next term. -/
  nextTerm : Nat
deriving Repr

/-- A variable that is computed. -/
structure OutputVariable (α : Type) extends Variable α where
  /-- The terms that rules activated in this cycle. -/
  fuzzyOutput : Aggregated α
  defuzzifier : Option Defuzzifier
  /-- The value when no rule fired. -/
  defaultValue : α
  /-- The last value that was not `nan`. -/
  previousValue : α
  /-- When no rule fires, the previous value is kept in preference to the default. -/
  lockPreviousValue : Bool
deriving Repr

namespace Variable

variable {α : Type} [Scalar α]

/-- A variable without terms, of unknown value. -/
def empty (name : Name) (minimum maximum : α) : Variable α :=
  ⟨0, name, minimum, maximum, true, false, nan, [], [], 0⟩

/-- Assigns a value, brought into the range where it is locked. -/
def assign (v : Variable α) (x : α) : Variable α :=
  { v with value := if v.lockValueInRange then bound x v.minimum v.maximum else x }

/-! ## §1 Terms -/

/-- A term has that name. -/
def hasTerm (v : Variable α) (name : Name) : Bool := v.terms.any fun t => t.name == name

/-- The term of that name. -/
def term (v : Variable α) (name : Name) : Except Error (Term α) :=
  match v.terms.find? fun t => t.name == name with
  | some t => .ok t
  | none => .error (.configuration (.unknownTerm name.asText v.name.asText))

/-- The term at a position. -/
def termAt (v : Variable α) (i : Index) : Except Error (Term α) :=
  match (if i.toInt < 0 then none else v.terms[i.toInt.toNat]?) with
  | some t => .ok t
  | none => .error (.configuration (.termPosition i v.name.asText v.terms.length))

/-- The term of a name or at a position. -/
def termOf (v : Variable α) : Key → Except Error (Term α)
  | .name n => v.term n
  | .position i => v.termAt i

/-- A term of that identity, also one that was removed. -/
def termById? (v : Variable α) (id : Nat) : Option (Term α) :=
  (v.terms ++ v.removedTerms).find? fun t => t.id == id

/-- Puts a term, which gets an identity of its own, into the list by the given function. -/
def placeTerm (v : Variable α) (t : Term α) (place : Term α → List (Term α) → List (Term α)) :
    Except Error (Variable α) :=
  if v.hasTerm t.name then do
    throw (.configuration (.duplicateTerm (← t.name.written) (← v.name.written)))
  else
    .ok { v with terms := place { t with id := v.nextTerm } v.terms, nextTerm := v.nextTerm + 1 }

/-- Adds a term at the end. -/
def addTerm (v : Variable α) (t : Term α) : Except Error (Variable α) :=
  v.placeTerm t fun t ts => ts ++ [t]

/-- Inserts a term at a position. -/
def insertTerm (v : Variable α) (t : Term α) (i : Int) : Except Error (Variable α) := do
  let w ← v.placeTerm t fun t ts => Position.insert ts i t
  Position.check i
  return w

/-- Removes a term, which is kept apart. -/
def removeTerm (v : Variable α) (key : Key) : Except Error (Term α × Variable α) := do
  let t ← v.termOf key
  return (t, { v with
    terms := v.terms.filter fun u => u.id != t.id
    removedTerms := v.removedTerms ++ [t] })

/-- Puts a changed term in the place of the one with its identity. -/
def replaceTerm (v : Variable α) (t : Term α) : Variable α :=
  { v with terms := v.terms.map fun u => if u.id == t.id then t else u }

/-! ## §2 Fuzzy values -/

/-- The term of the highest positive degree at a crisp value, the first one of several, and its degree. -/
def highestMembership (around : Option (Surroundings α)) (x : α) :
    α → Option (Term α) → List (Term α) → Except Error (α × Option (Term α))
  | best, t?, [] => .ok (best, t?)
  | best, t?, t :: rest => do
    let d ← t.membership around x
    if best < d then highestMembership around x d (some t) rest
    else highestMembership around x best t? rest

/-- The term of the highest positive degree at a crisp value, and its degree. -/
def highest (v : Variable α) (around : Option (Surroundings α)) (x : α) :
    Except Error (α × Option (Term α)) :=
  highestMembership around x 0.0 none v.terms

/-- The signed terms of a fuzzy value; the first one shows no plus sign. -/
def fuzzyParts : List (Bool × String) → List String
  | [] => []
  | (negative, body) :: rest =>
    (if negative then "-" ++ body else body) ::
      rest.map fun (negative, body) => (if negative then "- " else "+ ") ++ body

/-- The degree of every term, as a sum of degrees and names. -/
def fuzzyText (degree : Term Float → Except Error Float) (terms : List (Term Float))
    (decimals : Int) : Except Error String := do
  let parts ← terms.mapM fun t => do
    let d ← degree t
    let magnitude ← withDecimals decimals [d] fun n => Scalar.text n (abs d)
    return (decide (d < 0.0), magnitude ++ "/" ++ (← t.name.written))
  return Text.unwords (fuzzyParts parts)

/-- The degree of a crisp value in every term. -/
def fuzzify (v : Variable Float) (around : Option (Surroundings Float)) (x : Float)
    (decimals : Int) : Except Error String :=
  fuzzyText (fun t => t.membership around x) v.terms decimals

/-- An input variable in one line. -/
def inputText (v : Variable α) : String := "InputVariable: " ++ v.name.asText

end Variable

namespace OutputVariable

variable {α : Type} [Scalar α]

/-- An output variable without terms and operators, of unknown value. -/
def empty (name : Name) (minimum maximum : α) : OutputVariable α :=
  { Variable.empty name minimum maximum with
    fuzzyOutput := ⟨name, minimum, maximum, none, []⟩
    defuzzifier := none
    defaultValue := nan
    previousValue := nan
    lockPreviousValue := false }

/-- Changes what an output has in common with other variables. -/
def modify (v : OutputVariable α) (f : Variable α → Variable α) : OutputVariable α :=
  { v with toVariable := f v.toVariable }

/-- Puts a changed term in the place of the one with its identity, also where it is activated. -/
def replaceTerm (v : OutputVariable α) (t : Term α) : OutputVariable α :=
  { v with
    toVariable := v.toVariable.replaceTerm t
    fuzzyOutput := { v.fuzzyOutput with
      terms := v.fuzzyOutput.terms.map fun a => if a.term.id == t.id then { a with term := t } else a } }

/-- Adds an activated term. -/
def activate (v : OutputVariable α) (a : Activated α) : OutputVariable α :=
  { v with fuzzyOutput := v.fuzzyOutput.add a }

/-- Forgets the activated terms. -/
def clearFuzzyOutput (v : OutputVariable α) : OutputVariable α :=
  { v with fuzzyOutput := v.fuzzyOutput.clear }

/-- Forgets the activated terms and both values. -/
def clear (v : OutputVariable α) : OutputVariable α :=
  { v with value := nan, previousValue := nan, fuzzyOutput := v.fuzzyOutput.clear }

/-- Remembers the value and takes the current range over to the fuzzy output, before defuzzification. -/
def prepare (v : OutputVariable α) : OutputVariable α :=
  { v with
    previousValue := if isNaN v.value then v.previousValue else v.value
    fuzzyOutput := { v.fuzzyOutput with minimum := v.minimum, maximum := v.maximum } }

/-- The value when no activated term reaches the output. -/
def idleValue (v : OutputVariable α) : α :=
  if v.lockPreviousValue && !isNaN v.previousValue then v.previousValue else v.defaultValue

/-- The value is computed from activated terms. -/
def isActive (v : OutputVariable α) : Bool := v.enabled && !v.fuzzyOutput.isEmpty

/-- The value before it is brought into the range. -/
def rawValue (v : OutputVariable α) (around : Option (Surroundings α)) : Except Error α :=
  if v.isActive then
    match v.defuzzifier with
    | none => .error (.evaluation (.missingDefuzzifier v.name.asText))
    | some d => d.defuzzify around (.aggregated v.fuzzyOutput) v.minimum v.maximum
  else .ok v.idleValue

/-- A value as the output takes it over: brought into the range where it is locked. -/
def settleValue (v : OutputVariable α) (x : α) : α :=
  if v.lockValueInRange && !isNaN x then bound x v.minimum v.maximum else x

/-- Computes the value of the cycle. When that is refused, the output stays prepared. -/
def defuzzify (v : OutputVariable α) (around : Option (Surroundings α)) :
    OutputVariable α × Except Error Unit :=
  let v := v.prepare
  match v.rawValue around with
  | .error e => (v, .error e)
  | .ok x => ({ v with value := v.settleValue x }, .ok ())

/-- The degree to which rules activated every term. -/
def fuzzyOutputText (v : OutputVariable Float) (decimals : Int) : Except Error String :=
  Variable.fuzzyText (fun t => v.fuzzyOutput.activationDegree t.id) v.terms decimals

/-- The output variable in one line. -/
def text (v : OutputVariable α) : String := "OutputVariable: " ++ v.name.asText

end OutputVariable

end FuzzyInference
