import FuzzyInference.Catalogue
import FuzzyInference.Formula.Parser
import FuzzyInference.Name
import FuzzyInference.Term.Shape

/-!
# Terms

A term is a name for a fuzzy set of crisp values, such as `DARK`. Most terms are shapes. The others give
the crisp values of Takagi-Sugeno rules: a constant, a linear combination of an engine's inputs, or a
formula over its variables.

A linear term or a formula reads the variables of the engine to which the term belongs. They are given as
its *surroundings*; a term outside an engine has none.

## Main definitions

* `Term.membership`: the degree, or value, of a term at a crisp value
* `Term.support`, `Term.isMonotonic`, `Term.invert`
-/

namespace FuzzyInference

open Scalar Formula

/-! ## §1 Surroundings -/

/-- The variables of an engine with their crisp values, as terms see them. -/
structure Surroundings (α : Type) where
  inputs : List (Name × α)
  outputs : List (Name × α)

namespace Surroundings

variable {α : Type}

/-- The value of a variable. Of several variables with one name, the last counts. -/
def value? (s : Surroundings α) (name : String) : Option α :=
  (s.inputs ++ s.outputs).reverse.lookup (Name.text name)

end Surroundings

/-! ## §2 Terms -/

/-- What a formula term holds: its text, the expression once it is loaded, and values of its own for
names. -/
structure FormulaBody (α : Type) where
  formula : String
  root : Option (Expr α)
  extra : List (String × α)
deriving Repr

/-- What a term is. -/
inductive Body (α : Type)
  /-- A curve, scaled by a height. -/
  | shape (s : Shape α) (height : α)
  | constant (value : α)
  /-- A coefficient for each input of the engine, and at most one more for the constant part. -/
  | linear (coefficients : List α)
  | formula (f : FormulaBody α)
deriving Repr

/-- A named term. Terms of one variable differ in their identity, also when one takes the name of another
that was removed. -/
structure Term (α : Type) where
  id : Nat
  name : Name
  body : Body α
deriving Repr

/-- The kinds of terms. -/
inductive TermKind
  | shape (k : ShapeKind)
  | constant | linear | formula
deriving DecidableEq, Repr

namespace TermKind

def name : TermKind → String
  | shape k => k.name
  | constant => "Constant"
  | linear => "Linear"
  | formula => "Function"

/-- All kinds. -/
def all : List TermKind := ShapeKind.all.map shape ++ [constant, linear, formula]

/-- The kinds of terms by name. -/
def catalogue : Catalogue TermKind := ⟨.term, all.map fun k => (k.name, k)⟩

/-- The term is a crisp value rather than a fuzzy set. -/
def isCrisp : TermKind → Bool
  | shape _ => false
  | _ => true

end TermKind

namespace FormulaBody

variable {α : Type} [Scalar α]

/-- Gives a name a value of the formula's own. -/
def define (f : FormulaBody α) (name : String) (x : α) : FormulaBody α :=
  { f with extra := (name, x) :: f.extra }

/-- The value of the formula where names have the given values, before those of its own. -/
def eval (f : FormulaBody α) (name : String) (scope : Valuation α) : Except Error α :=
  match f.root with
  | none => .error (.evaluation (.formulaNotLoaded name))
  | some root => root.eval fun n => scope n <|> f.extra.lookup n

end FormulaBody

namespace Term

variable {α : Type}

def kind (t : Term α) : TermKind :=
  match t.body with
  | .shape s _ => .shape s.kind
  | .constant _ => .constant
  | .linear _ => .linear
  | .formula _ => .formula

/-- The term is a crisp value rather than a fuzzy set. -/
def isCrisp (t : Term α) : Bool := t.kind.isCrisp

variable [Scalar α]

/-- The inputs weighted by the coefficients; one more coefficient than inputs is a constant part. -/
def combine (coefficients inputs : List α) : α :=
  let sum := (coefficients.zip inputs).foldl (fun acc (c, v) => acc + c * v) 0.0
  if coefficients.length = inputs.length + 1 then sum + coefficients.getLastD 0.0 else sum

/-- The values that a formula finds for names: the argument `x` first, then the variables around. -/
def scope (around : Option (Surroundings α)) (x : α) : Valuation α := fun n =>
  if n = "x" then some x else around.bind fun s => s.value? n

/-- The degree of a crisp value in the fuzzy set, or the crisp value of the term. -/
def membership (around : Option (Surroundings α)) (t : Term α) (x : α) : Except Error α :=
  match t.body with
  | .shape s height => s.membership t.name.asText height x
  | .constant value => .ok value
  | .linear coefficients =>
    match around with
    | none => .error (.evaluation (.unattached t.name.asText))
    | some s => .ok (combine coefficients (s.inputs.map Prod.snd))
  | .formula f => f.eval t.name.asText (scope around x)

/-- An interval outside which the degree is zero. -/
def support (t : Term α) : α × α :=
  match t.body with
  | .shape s _ => s.support
  | _ => (-inf, inf)

/-- The term can be inverted. -/
def isMonotonic (t : Term α) : Bool :=
  match t.body with
  | .shape s _ => s.isMonotonic
  | _ => false

/-- The crisp value of a degree. -/
def invert (t : Term α) (w minimum maximum : α) : Except Error α :=
  match t.body with
  | .shape s _ => s.invert t.name.asText w minimum maximum
  | _ => .error (.evaluation (.notMonotonic t.kind.name t.name.asText))

/-- A term before it is configured: its parameters are `nan`, and it has no points, coefficients or
formula. -/
def blank (k : TermKind) (name : Name) : Term α :=
  let body : Body α := match k with
    | .shape k =>
      .shape ((Shape.ofValues? k (List.replicate k.arity nan)).getD (.discrete [])) 1.0
    | .constant => .constant nan
    | .linear => .linear []
    | .formula => .formula ⟨"", none, []⟩
  ⟨0, name, body⟩

end Term

end FuzzyInference
