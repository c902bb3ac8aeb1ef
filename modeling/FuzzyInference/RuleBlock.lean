import FuzzyInference.Rule.Basic

/-!
# Rule blocks

A block groups rules that share operators and an activation method. It is activated in two phases: first
the degrees of all enabled rules that are loaded are computed, against the variables as they were before,
then the rules that the activation method selects fire, one after the other.

## Main definitions

* `RuleBlock.evaluateAll`: the first phase
* `RuleBlock.fireAll`: the second phase
* `RuleBlock.activate`: both phases
* `RuleBlock.loadAll`: loads every rule, each on its own
-/

namespace FuzzyInference

open Scalar

/-- Rules that share operators. -/
structure RuleBlock (α : Type) where
  name : Name
  /-- Disabled blocks are skipped. -/
  enabled : Bool
  conjunction : Option TNorm
  disjunction : Option SNorm
  implication : Option TNorm
  activation : Option (Activation α)
  rules : List (Rule α)
deriving Repr

namespace RuleBlock

variable {α : Type} [Scalar α]

/-! ## §1 Rules of a block -/

/-- Adds a rule given by its text, not loaded. -/
def addRule (b : RuleBlock α) (text : String) : RuleBlock α :=
  { b with rules := b.rules ++ [Rule.ofText text] }

/-- Inserts a rule given by its text, not loaded. -/
def insertRule (b : RuleBlock α) (text : String) (i : Int) : Except Fault (RuleBlock α) := do
  Position.check i
  return { b with rules := Position.insert b.rules i (Rule.ofText text) }

/-- The rule at a position, which may count from the end. -/
def ruleAt (b : RuleBlock α) (i : Int) : Except Error (Nat × Rule α) :=
  match Position.index? b.rules.length i with
  | none => .error (.fault .index)
  | some n =>
    match b.rules[n]? with
    | some r => .ok (n, r)
    | none => .error (.fault .index)

/-- Removes the rule at a position, which may count from the end. -/
def removeRule (b : RuleBlock α) (i : Int) : Except Error (Rule α × RuleBlock α) := do
  Position.check i
  let (n, r) ← b.ruleAt i
  return (r, { b with rules := b.rules.eraseIdx n })

/-- Puts a changed rule in the place of another. -/
def setRule (b : RuleBlock α) (n : Nat) (r : Rule α) : RuleBlock α :=
  { b with rules := b.rules.set n r }

/-! ## §2 Loading -/

/-- The error that loading one rule of a list gave, with the index of the rule. -/
abbrev Failure := Nat × RuleError

/-- How a failure is listed. -/
def failureText (f : Failure) : String := s!"[rule {f.1}] {f.2.fault.message}"

/-- Loads rules, the first of which has the given index. One that fails does not keep the others from being
loaded. -/
def loadFrom (v : Vocabulary) (block : Name) :
    Nat → List (Rule Float) → List (Rule Float) × List (Event Float) × List Failure
  | _, [] => ([], [], [])
  | n, r :: rest =>
    let (rules, events, failures) := loadFrom v block (n + 1) rest
    match r.load v with
    | (r, .ok ()) => (r :: rules, .ruleLoaded r.shown :: events, failures)
    | (r, .error e) => (r :: rules, .ruleFailed block n e.fault :: events, (n, e) :: failures)

/-- Loads every rule. The failures are listed in the order of the rules. -/
def loadAll (v : Vocabulary) (b : RuleBlock Float) :
    RuleBlock Float × List (Event Float) × List Failure :=
  let (rules, events, failures) := loadFrom v b.name 0 b.rules
  ({ b with rules },
    events ++ [.blockLoaded b.name (rules.length - failures.length) rules.length], failures)

/-- Unloads every rule. -/
def unloadAll (b : RuleBlock α) : RuleBlock α := { b with rules := b.rules.map Rule.unload }

/-! ## §3 Activation -/

/-- The rule takes part. -/
def isActive (r : Rule α) : Bool := r.enabled && r.isLoaded

/-- What the first phase reached: the rules, and the degrees of those that take part, each with the index of
the rule. -/
structure Evaluated (α : Type) where
  rules : List (Rule α)
  degrees : List (α × Nat)

/-- Evaluates the rules that take part, in order; the first rule has the given index. An error stops the
evaluation, and the rules after the one that caused it stay as they were. -/
def evaluateFrom (vs : Variables α) (b : RuleBlock α) :
    Nat → List (Rule α) → Evaluated α × Option Error
  | _, [] => (⟨[], []⟩, none)
  | n, r :: rest =>
    if isActive r then
      match r.deactivate.weightedDegree vs b.conjunction b.disjunction with
      -- what the rule did in the cycle before is forgotten even then
      | .error e => (⟨r.deactivate :: rest, []⟩, some e)
      | .ok d =>
        let (after, error) := evaluateFrom vs b (n + 1) rest
        (⟨{ r.deactivate with degree := d } :: after.rules, (d, n) :: after.degrees⟩, error)
    else
      let (after, error) := evaluateFrom vs b (n + 1) rest
      (⟨r :: after.rules, after.degrees⟩, error)

/-- Evaluates the rules that take part. -/
def evaluateAll (vs : Variables α) (b : RuleBlock α) : Evaluated α × Option Error :=
  evaluateFrom vs b 0 b.rules

/-- Fires one rule with a degree. -/
def fire (p : α × Nat) (state : Variables α × RuleBlock α) :
    Outcome (Event α) (Variables α × RuleBlock α) :=
  let (vs, b) := state
  match b.rules[p.2]? with
  | none => .done (vs, b)
  | some r =>
    (Rule.trigger b.implication vs { r with degree := p.1 }).map fun (vs, r) => (vs, b.setRule p.2 r)

/-- Fires rules with degrees, in order. -/
def fireAll (ps : List (α × Nat)) (state : Variables α × RuleBlock α) :
    Outcome (Event α) (Variables α × RuleBlock α) :=
  Outcome.each fire ps state

/-- The activation method in force. -/
def method (b : RuleBlock α) : Activation α := b.activation.getD .general

/-- Evaluates the rules and fires those that the method selects. -/
def run (vs : Variables α) (b : RuleBlock α) : Outcome (Event α) (Variables α × RuleBlock α) :=
  let (evaluated, error) := b.evaluateAll vs
  let b := { b with rules := evaluated.rules }
  match error with
  | some e => .stop e (vs, b)
  | none =>
    let start : Outcome (Event α) (Variables α × RuleBlock α) :=
      if b.method.findsNothing evaluated.degrees then .report (.noRuleFired b.name) (vs, b)
      else .done (vs, b)
    start.andThen (fireAll (b.method.select evaluated.degrees))

/-- Activates the block, unless it is disabled. -/
def activate (vs : Variables α) (b : RuleBlock α) : Outcome (Event α) (Variables α × RuleBlock α) :=
  if b.enabled then
    (Outcome.report (.blockActivated b.name b.method) (vs, b)).andThen fun (vs, b) => b.run vs
  else .done (vs, b)

/-! ## §4 Text -/

/-- The name of an operator, or a word for none. -/
def operatorName (name : Option String) : String := name.getD "none"

/-- The lines that describe the block. -/
def text (b : RuleBlock Float) : String :=
  String.intercalate "\n" ([
    "RuleBlock: " ++ b.name.asText,
    "  enabled: " ++ Text.truth b.enabled,
    "  conjunction: " ++ operatorName (b.conjunction.map TNorm.name),
    "  disjunction: " ++ operatorName (b.disjunction.map SNorm.name),
    "  implication: " ++ operatorName (b.implication.map TNorm.name),
    "  activation: " ++ operatorName (b.activation.map Activation.describe)] ++
    b.rules.map fun r => "  rule: " ++ r.shown)

end RuleBlock

end FuzzyInference
