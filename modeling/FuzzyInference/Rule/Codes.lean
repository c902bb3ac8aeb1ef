import FuzzyInference.Document.Value
import FuzzyInference.Rule.Vocabulary

/-!
# Index-coded rules

A rule can be given as a row of numbers: one code for each input and each output, in the order of
declaration, then the weight and the connective. The whole part of a code selects a term of the variable
by its position, counted from one; zero leaves the variable out. The fractional part selects hedges, and a
negative code negates the proposition. The connective is `1` for `and` and `2` for `or`.

## Main definitions

* `CodedRule.proposition`: what one code says about its variable
* `CodedRule.ofCodes`: the rule that a row of codes stands for
* `CodedRule.text`: the rule in words
-/

namespace FuzzyInference

open Scalar

/-- A rule whose conditions are all joined by one connective. -/
structure CodedRule where
  conditions : List Proposition
  connective : Connective
  conclusions : List Proposition
  weight : Float
deriving Repr

namespace CodedRule

/-! ## §1 Codes -/

/-- Fractional parts closer than this select the same hedges. -/
def fractionTolerance : Float := 1e-6

/-- The hedges that fractional parts select. -/
def fractionHedges : List (Float × List Hedge) :=
  [(0.01, [.seldom]), (0.05, [.somewhat]), (0.2, [.very]), (0.3, [.extremely]),
   (0.4, [.very, .very]), (0.99, [.any])]

/-- The hedges of a fractional part; no hedges for zero. -/
def hedges? (fraction : Float) : Option (List Hedge) :=
  if nearWithin fractionTolerance fraction 0.0 then some []
  else (fractionHedges.find? fun p => nearWithin fractionTolerance fraction p.1).map Prod.snd

/-- The whole part of a magnitude. -/
def wholePart (magnitude : Float) : Except Fault Nat :=
  match Decimal.floor? magnitude with
  | some n => .ok n.toNat
  | none => .error (if Scalar.isNaN magnitude then .notWhole else .overflow)

/-- The code leaves its variable out. -/
def isOmitted (code : Float) : Bool := near code 0.0

/-- The proposition that a code makes about a variable. Conclusions must name a term, so that they cannot
use the hedge that matches everything. -/
def proposition (e : VocabularyEntry) (isConclusion : Bool) (code : Float) : Except Error Proposition := do
  let magnitude := Scalar.abs code
  let position ← wholePart magnitude
  let fraction ← remainder magnitude 1.0
  if e.terms.length < position then
    throw (.configuration (.termPosition (.number position) e.ref.name e.terms.length))
  let hedges ← match hedges? fraction with
    | some hedges => pure hedges
    | none => throw (.configuration (.uncodedHedge (Scalar.text 4 fraction) e.ref.name))
  let negated : List Hedge := if code < 0.0 then [.not] else []
  if hedges.contains .any then
    if isConclusion then throw (.configuration (.codedAny e.ref.name))
    return ⟨e.ref, negated ++ hedges, none⟩
  match (if position = 0 then none else e.terms[position - 1]?) with
  | some t => return ⟨e.ref, negated ++ hedges, some t⟩
  | none => throw (.configuration (.codedNothing (Decimal.shortestText code) e.ref.name))

/-- The propositions of codes that do not leave their variable out, in order. -/
def propositions (isConclusion : Bool) (entries : List VocabularyEntry) (codes : List Float) :
    Except Error (List Proposition) :=
  ((entries.zip codes).filter fun p => !isOmitted p.2).mapM fun p => proposition p.1 isConclusion p.2

/-- The connective of a number. -/
def connectiveOf (n : Int) : Except Error Connective :=
  if n = 1 then .ok .and
  else if n = 2 then .ok .or
  else .error (.configuration (.unknownConnector n))

/-! ## §2 Rules -/

/-- Scalars as a list in a message. -/
def listed (codes : List Float) : String := (Value.list (codes.map Value.float)).shown

/-- The rule that a row of codes stands for, where the vocabulary lists all variables and terms. -/
def ofCodes (v : Vocabulary) (row : List Value) : Except Error CodedRule := do
  let inputs := v.inputs.length
  let outputs := v.outputs.length
  let expected := inputs + outputs + 2
  if row.length != expected then
    let shown ← (Value.list row).written
    throw (.configuration (.codedArity shown row.length expected inputs outputs))
  let codes ← row.mapM Value.toScalar
  let tail := codes.drop (inputs + outputs)
  let weight := tail.headD nan
  let connective ← connectiveOf (← Value.truncated (tail.getLastD nan))
  let conditions ← propositions false v.inputs (codes.take inputs)
  let conclusions ← propositions true v.outputs ((codes.drop inputs).take outputs)
  if conditions.isEmpty || conclusions.isEmpty then
    throw (.configuration (.codedWithoutTerm (listed codes)))
  return ⟨conditions, connective, conclusions, weight⟩

/-- The number of significant digits of a weight. -/
def weightDigits : Nat := 6

/-- The rule in words. A weight of one is left out. -/
def text (r : CodedRule) : String :=
  let antecedent := String.intercalate (" " ++ r.connective.word ++ " ") (r.conditions.map Proposition.text)
  let consequent := String.intercalate " and " (r.conclusions.map Proposition.text)
  let weight := if near r.weight 1.0 then ""
    else " with " ++ Decimal.significantText weightDigits r.weight
  "if " ++ antecedent ++ " then " ++ consequent ++ weight

end CodedRule

end FuzzyInference
