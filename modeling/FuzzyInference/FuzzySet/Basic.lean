import FuzzyInference.FuzzySet.Aggregated
import FuzzyInference.FuzzySet.Cumulative
import FuzzyInference.Term.Parameters

/-!
# Fuzzy sets

Everything that gives degrees to crisp values: a term, an activated term, the aggregated set of an output
variable and a cumulative set. Only terms can be inverted and configured.
-/

namespace FuzzyInference

open Scalar

/-- A fuzzy set of crisp values. -/
inductive FuzzySet (α : Type)
  | term (t : Term α)
  | activated (a : Activated α)
  | aggregated (s : Aggregated α)
  | cumulative (s : Cumulative α)

namespace FuzzySet

variable {α : Type}

def name : FuzzySet α → Name
  | term t => t.name
  | activated a => a.term.name
  | aggregated s => s.name
  | cumulative s => s.name

/-- The name of the kind of set. -/
def kindName : FuzzySet α → String
  | term t => t.kind.name
  | activated _ => "Activated"
  | aggregated _ => "Aggregated"
  | cumulative _ => "Cumulative"

/-- The set is a crisp value. -/
def isCrisp : FuzzySet α → Bool
  | term t => t.isCrisp
  | _ => false

variable [Scalar α]

/-- The degree of a crisp value. -/
def membership (around : Option (Surroundings α)) : FuzzySet α → α → Except Error α
  | term t, x => t.membership around x
  | activated a, x => a.membership around x
  | aggregated s, x => s.membership around x
  | cumulative s, x => s.membership around x

/-- An interval outside which the degree is zero. -/
def support : FuzzySet α → α × α
  | term t => t.support
  | activated _ => (-inf, inf)
  | aggregated s => (s.minimum, s.maximum)
  | cumulative s => (s.minimum, s.maximum)

/-- The set can be inverted. -/
def isMonotonic : FuzzySet α → Bool
  | term t => t.isMonotonic
  | _ => false

/-- The crisp value of a degree. -/
def invert (s : FuzzySet α) (w minimum maximum : α) : Except Error α :=
  match s with
  | term t => t.invert w minimum maximum
  | s => .error (.evaluation (.notMonotonic s.kindName s.name.asText))

/-! ## Texts and parameters -/

/-- The text of the parameters. -/
def parameters (s : FuzzySet Float) (decimals : Nat) : String :=
  match s with
  | term t => t.parameters decimals
  | activated a => a.parameters decimals
  | aggregated s => s.parameters decimals
  | cumulative s => s.parameters

/-- The scalars that the parameters show with the decimals asked for. -/
def shownScalars : FuzzySet Float → List Float
  | term t => t.scalars
  | activated a => [a.degree]
  | aggregated s => [s.minimum, s.maximum]
  | cumulative _ => []

/-- The text of the parameters, for a number of decimals that may be negative. -/
def parameters? (s : FuzzySet Float) (decimals : Int) : Except Fault String :=
  withDecimals decimals s.shownScalars s.parameters

/-- The set in one line. -/
def text (s : FuzzySet Float) : String :=
  match s with
  | activated a => a.text
  | aggregated s => s.text
  | s => Term.describe s.name s.kindName (s.parameters defaultDecimals)

/-- The set as a call of its kind. -/
def shown (s : FuzzySet Float) : String :=
  Term.describeCall s.name s.kindName (s.parameters defaultDecimals)

/-- Sets the parameters of a term; other sets are assembled and refuse. -/
def configure (s : FuzzySet Float) (parameters : Value) : FuzzySet Float × Except Error Unit :=
  match s with
  | term t =>
    let (t, outcome) := t.configure parameters
    (term t, outcome)
  | cumulative s => (cumulative s, .error (.configuration .cumulativeParameters))
  | s => (s, .error (.configuration .aggregatedParameters))

end FuzzySet

end FuzzyInference
