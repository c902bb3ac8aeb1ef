import FuzzyInference.Catalogue
import FuzzyInference.Document.Value
import FuzzyInference.Term.Basic

/-!
# Parameters of terms

A term is configured from its parameters and writes them back in the same order. The height of a shape
follows its other parameters and is left out where it is one. The parameters of a formula are its text.

## Main definitions

* `Term.parameters`: the text of the parameters
* `Term.configure`: the term with other parameters
* `TermRegistry`: the kinds of terms that can be built by name
-/

namespace FuzzyInference

open Scalar

namespace Term

/-! ## §1 Writing -/

/-- The scalars among the parameters. -/
def scalars (t : Term Float) : List Float :=
  match t.body with
  | .shape s height => s.values ++ (if near height 1.0 then [] else [height])
  | .constant value => [value]
  | .linear coefficients => coefficients
  | .formula _ => []

/-- The text of the parameters. -/
def parameters (t : Term Float) (decimals : Nat) : String :=
  match t.body with
  | .formula f => f.formula
  | _ => textAll decimals t.scalars

/-- The text of the parameters, for a number of decimals that may be negative. -/
def parameters? (t : Term Float) (decimals : Int) : Except Fault String :=
  withDecimals decimals t.scalars t.parameters

/-- A fuzzy set in one line: its name, kind and parameters. -/
def describe (name : Name) (kind parameters : String) : String :=
  Text.trimRight ("term: " ++ name.asText ++ " " ++ kind ++ " " ++ parameters)

/-- A fuzzy set as a call of its kind. -/
def describeCall (name : Name) (kind parameters : String) : String :=
  kind ++ "(" ++ name.shown ++ ", " ++ Text.quoted parameters ++ ")"

/-- The term in one line. -/
def text (t : Term Float) : String := describe t.name t.kind.name (t.parameters defaultDecimals)

/-- The term in one line, unless its name is too long to be written. -/
def written (t : Term Float) : Except Fault String :=
  Decimal.writtenWhen t.name.isWritable t.text

/-- The term as a call of its kind. -/
def shown (t : Term Float) : String := describeCall t.name t.kind.name (t.parameters defaultDecimals)

/-! ## §2 Configuring -/

/-- Reads the parameters of a shape. The last one may be a height; an odd number of parameters of a
discrete shape ends with one. -/
def configureShape (k : ShapeKind) (name : Name) (values : List Float) : Except Error (Body Float) :=
  match k with
  | .discrete =>
    let odd := values.length % 2 = 1
    let coordinates := if odd then values.dropLast else values
    let height := if odd then values.getLastD 1.0 else 1.0
    if coordinates.isEmpty then do throw (.configuration (.noPoints (← name.written)))
    else .ok (.shape (.discrete (Shape.pairs coordinates)) height)
  | k =>
    match Shape.ofValues? k values with
    | some s => .ok (.shape s 1.0)
    | none =>
      match Shape.ofValues? k values.dropLast with
      | some s => .ok (.shape s (values.getLastD 1.0))
      | none => do throw (.configuration (.parameterCount k.name (← name.written) k.arity true values.length))

/-- The text of a formula given as a text or in pieces. -/
def formulaText (parameters : Value) : Except Fault String :=
  match parameters with
  | .text s => .ok s
  | v => Value.writtenWords v.items

/-- Takes a formula over and parses it. The text is kept also when it does not parse; the expression is then
the one before. -/
def loadFormula (t : Term Float) (f : FormulaBody Float) (formula : String) :
    Term Float × Except Error Unit :=
  match Formula.parse formula with
  | .ok root => (⟨t.id, t.name, .formula ⟨formula, some root, f.extra⟩⟩, .ok ())
  | .error e => (⟨t.id, t.name, .formula ⟨formula, f.root, f.extra⟩⟩, .error e)

/-- Sets the parameters, given as a text or a list. What a refusal leaves behind is the term that comes with
it. -/
def configure (t : Term Float) (parameters : Value) : Term Float × Except Error Unit :=
  match t.body with
  | .formula f =>
    match formulaText parameters with
    | .ok formula => t.loadFormula f formula
    | .error e => (t, .error (.fault e))
  | body =>
    let configured : Except Error (Body Float) := do
      let values ← parameters.toScalars
      match body with
      | .shape s _ => configureShape s.kind t.name values
      | .constant _ =>
        match values with
        | [value] => return .constant value
        | _ =>
          let name ← t.name.written
          throw (.configuration (.parameterCount t.kind.name name 1 false values.length))
      | .linear _ => return .linear values
      | .formula f => return .formula f
    match configured with
    | .ok body => ({ t with body }, .ok ())
    | .error e => (t, .error e)

end Term

/-! ## §3 Building by name -/

/-- The kinds of terms that can be built, by name. -/
abbrev TermRegistry := Catalogue TermKind

namespace TermRegistry

/-- Makes a kind available under one more name, or gives a name to another kind. -/
def register (r : TermRegistry) (name : String) (k : TermKind) : TermRegistry :=
  { r with entries := r.entries.filter (fun entry => entry.1 != name) ++ [(name, k)] }

/-- Registers the kind that has a name so far under another one. -/
def registerAs (r : TermRegistry) (name existing : String) : Except Error TermRegistry :=
  match r.find? existing with
  | some k => .ok (r.register name k)
  | none => .error (.fault .missingEntry)

/-- The kind that a value names; only texts are names of kinds. -/
def ofValue (r : TermRegistry) (kind : Value) : Except Error TermKind :=
  match kind with
  | .text s => r.get s
  | v => do r.refuse (← v.written)

/-- The parameters ask for something: an absent value and a blank text leave a term unconfigured. -/
def hasParameters : Value → Bool
  | .text s => !(Text.trim s).isEmpty
  | v => v.isPresent

/-- Builds a term of a kind given by name. -/
def build (r : TermRegistry) (kind : Value) (name : Name) (parameters : Value) :
    Except Error (Term Float) :=
  if !kind.isPresent then do throw (.configuration (.missingTermClass (← name.written)))
  else do
    let k ← r.ofValue kind
    let t := Term.blank k name
    if hasParameters parameters then
      let (t, outcome) := t.configure parameters
      outcome.map fun _ => t
    else return t

end TermRegistry

/-- The registry without additions. -/
def TermRegistry.standard : TermRegistry := TermKind.catalogue

end FuzzyInference
