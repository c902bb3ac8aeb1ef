import FuzzyInference.Hedge
import FuzzyInference.Norm
import FuzzyInference.Text.Blank

/-!
# Conditions of rules

The antecedent of a rule is a tree of propositions, `variable is [hedges] term`, joined by `and` and `or`
and prefixed by `not`. Propositions refer to variables and terms by identity, and keep their names for the
text. The degree of a condition is defined over any degrees of its propositions.

## Main definitions

* `Proposition`, `Condition`
* `Condition.degree`: the degree, given those of the propositions
* `Condition.text`: the text, with parentheses around every connective
-/

namespace FuzzyInference

/-- A reference to a variable. -/
structure VariableRef where
  id : Nat
  name : String
  isOutput : Bool
deriving DecidableEq, Repr

/-- A reference to a term of a known variable. -/
structure TermRef where
  id : Nat
  name : String
deriving DecidableEq, Repr

/-- The leaf of a condition, and the conclusion of a rule. The term is missing when the hedges end with the
one that matches everything. -/
structure Proposition where
  subject : VariableRef
  hedges : List Hedge
  term : Option TermRef
deriving DecidableEq, Repr

/-- The words that join conditions. -/
inductive Connective
  | and | or
deriving DecidableEq, Repr

def Connective.word : Connective → String
  | and => "and"
  | or => "or"

/-- The tree of an antecedent. -/
inductive Condition
  | proposition (p : Proposition)
  | join (c : Connective) (left right : Condition)
  | negation (operand : Condition)
deriving DecidableEq, Repr

namespace Proposition

/-- The words of a proposition. -/
def words (p : Proposition) : List String :=
  [p.subject.name, "is"] ++ p.hedges.map Hedge.name ++ (p.term.map TermRef.name).toList

def text (p : Proposition) : String := Text.unwords p.words

/-- The proposition matches whatever its term is. -/
def matchesAny (p : Proposition) : Bool := p.hedges.getLast? == some .any

end Proposition

namespace Condition

/-- The text of a condition. -/
def text : Condition → String
  | proposition p => p.text
  | join c left right => "(" ++ left.text ++ " " ++ c.word ++ " " ++ right.text ++ ")"
  | negation operand => "not " ++ operand.text

/-- The propositions, from left to right. -/
def propositions : Condition → List Proposition
  | proposition p => [p]
  | join _ left right => left.propositions ++ right.propositions
  | negation operand => operand.propositions

/-- A connective occurs somewhere in the tree. -/
def uses (c : Connective) : Condition → Bool
  | proposition _ => false
  | join d left right => d == c || left.uses c || right.uses c
  | negation operand => operand.uses c

variable {α : Type} [Scalar α]

/-- The degree of two conditions joined. The text is that of the whole, for errors. -/
def joinDegrees (conjunction : Option TNorm) (disjunction : Option SNorm) (c : Connective)
    (whole : String) (a b : α) : Except Error α :=
  match c with
  | .and =>
    match conjunction with
    | some t => t.compute a b
    | none => .error (.evaluation (.missingConjunction whole))
  | .or =>
    match disjunction with
    | some s => s.compute a b
    | none => .error (.evaluation (.missingDisjunction whole))

/-- The degree of a condition, given those of its propositions. Both sides of a connective are evaluated
before the operator is looked for. -/
def degree (conjunction : Option TNorm) (disjunction : Option SNorm)
    (degreeOf : Proposition → Except Error α) : Condition → Except Error α
  | proposition p => degreeOf p
  | join c left right => do
    let a ← left.degree conjunction disjunction degreeOf
    let b ← right.degree conjunction disjunction degreeOf
    joinDegrees conjunction disjunction c (join c left right).text a b
  | negation operand => do
    return 1.0 - (← operand.degree conjunction disjunction degreeOf)

end Condition

end FuzzyInference
