import FuzzyInference.Event
import FuzzyInference.Outcome
import FuzzyInference.Rule.Reader
import FuzzyInference.Variable.Store

/-!
# Rules

A rule keeps its text, a weight and what became of it in the current cycle: its degree and whether it was
triggered. It is *loaded* once its antecedent and consequent are read against the variables of an engine.

## Main definitions

* `Rule.load`, `Rule.unload`
* `Rule.evaluate`: the weighted degree of the antecedent
* `Rule.trigger`: activates the conclusions
-/

namespace FuzzyInference

open Scalar

/-- A linguistic rule. -/
structure Rule (α : Type) where
  text : String
  weight : α
  /-- Disabled rules are skipped. -/
  enabled : Bool
  antecedentText : String
  antecedent : Option Condition
  consequentText : String
  conclusions : List Proposition
  /-- The weighted degree of the last evaluation. -/
  degree : α
  /-- The rule activated its conclusions in this cycle. -/
  triggered : Bool
deriving Repr

namespace Rule

variable {α : Type} [Scalar α]

/-- A rule that is not loaded, of weight one. -/
def ofText (text : String) : Rule α := ⟨text, 1.0, true, "", none, "", [], 0.0, false⟩

/-- Both parts of the rule are read. -/
def isLoaded (r : Rule α) : Bool := r.antecedent.isSome && !r.conclusions.isEmpty

/-- Forgets the degree and that the rule was triggered. -/
def deactivate (r : Rule α) : Rule α := { r with degree := 0.0, triggered := false }

/-- Forgets what was read of the rule. -/
def unload (r : Rule α) : Rule α := { r.deactivate with antecedent := none, conclusions := [] }

/-! ## §1 Texts -/

/-- The antecedent as it was read, or its text. -/
def antecedentShown (r : Rule α) : String :=
  match r.antecedent with
  | some c => c.text
  | none => r.antecedentText

/-- The conclusions as they were read, or the text of the consequent. -/
def consequentShown (r : Rule α) : String :=
  if r.conclusions.isEmpty then r.consequentText
  else String.intercalate " and " (r.conclusions.map Proposition.text)

/-- The rule as it was read, or its text. A weight of one is not shown. -/
def shown (r : Rule Float) : String :=
  if r.isLoaded then
    let weight := if near r.weight 1.0 then "" else " with " ++ Scalar.text defaultDecimals r.weight
    "if " ++ r.antecedentShown ++ " then " ++ r.consequentShown ++ weight
  else r.text

/-! ## §2 Loading -/

/-- Takes the parts of the text over; the rule is not loaded yet. -/
def takeParts (r : Rule Float) (parts : RuleText) : Rule Float :=
  { r with
    weight := parts.weight.getD r.weight
    antecedentText := parts.antecedent
    consequentText := parts.consequent }

/-- Reads the text of the rule. A rule that cannot be read stays unloaded, but keeps what was taken over of
the parts of its text, among them the weight. -/
def load (v : Vocabulary) (r : Rule Float) : Rule Float × Except RuleError Unit :=
  let r := r.unload
  match RuleText.split r.text with
  | .error fault => (r, .error ⟨fault, r.text⟩)
  | .ok parts =>
    let r := r.takeParts parts
    match readCondition v parts.antecedent with
    | .error fault => (r, .error ⟨fault, r.text⟩)
    | .ok c =>
      match readConclusions v parts.consequent with
      | .error fault => (r, .error ⟨fault, r.text⟩)
      | .ok ps => ({ r with antecedent := some c, conclusions := ps }, .ok ())

/-- Loads the rule and reports it. -/
def loadReporting (v : Vocabulary) (r : Rule Float) : Outcome (Event Float) (Rule Float) :=
  match r.load v with
  | (r, .ok ()) => .report (.ruleLoaded r.shown) r
  | (r, .error e) => .stop (.rule e) r

/-- A rule of the given text, loaded. -/
def parse (v : Vocabulary) (text : String) : Outcome (Event Float) (Rule Float) :=
  loadReporting v (ofText text)

/-! ## §3 Firing -/

/-- The degree of the antecedent, without the weight. -/
def antecedentDegree (vs : Variables α) (conjunction : Option TNorm) (disjunction : Option SNorm)
    (r : Rule α) : Except Error α :=
  match r.antecedent with
  | none => .error (.evaluation (.antecedentNotLoaded r.antecedentText))
  | some c => c.degree conjunction disjunction vs.degreeOf

/-- The weighted degree of the antecedent. -/
def weightedDegree (vs : Variables α) (conjunction : Option TNorm) (disjunction : Option SNorm)
    (r : Rule α) : Except Error α :=
  if r.isLoaded then do
    return r.weight * (← r.antecedentDegree vs conjunction disjunction)
  else .error (.evaluation (.ruleNotLoaded r.text))

/-- Takes the weighted degree of the antecedent over. -/
def evaluate (vs : Variables α) (conjunction : Option TNorm) (disjunction : Option SNorm)
    (r : Rule α) : Outcome (Event α) (Rule α) :=
  match r.weightedDegree vs conjunction disjunction with
  | .ok d => .done { r with degree := d }
  | .error e => .stop e r

/-- Activates conclusions to a degree, in order. -/
def conclude (implication : Option TNorm) (degree : α) (ps : List Proposition) (vs : Variables α) :
    Outcome (Event α) (Variables α) :=
  Outcome.each (fun p vs =>
    match vs.conclude implication degree p with
    | .ok vs => .done vs
    | .error e => .stop e vs) ps vs

/-- Fires the rule if it is enabled and its degree is positive. -/
def trigger (implication : Option TNorm) (vs : Variables α) (r : Rule α) :
    Outcome (Event α) (Variables α × Rule α) :=
  if !r.isLoaded then .stop (.evaluation (.ruleNotLoaded r.text)) (vs, r)
  else if r.enabled && above r.degree 0.0 then
    let o := conclude implication r.degree r.conclusions vs
    (o.map fun vs => (vs, r)).andThen fun (vs, r) => .done (vs, { r with triggered := true })
  else .done (vs, r)

end Rule

end FuzzyInference
