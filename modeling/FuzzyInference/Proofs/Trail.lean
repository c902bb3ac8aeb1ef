import FuzzyInference.Proofs.Value
import FuzzyInference.Rule.Basic

/-!
# Trails

All that the rules of a cycle do to the variables is to add activated terms to the fuzzy outputs. What they
add is a *trail*: the activated terms in the order in which they were added, each with the identity of its
output. A store that receives a trail has it at the end of its fuzzy outputs, and is otherwise the same.

The plan of this module:

* trails, and stores that receive them;
* what rules read of a store that has received a trail;
* what the conclusions of a rule add, and that adding it is all they do.

## Main statements

* `Variables.receive_receive`: trails are received one after the other
* `Variables.output?_receive`: the outputs that rules read
* `Rule.value_conclude`: the conclusions of a rule, computed before any of them is activated
-/

namespace FuzzyInference

open Scalar

variable {α : Type}

/-! ## §1 Trails -/

/-- Activated terms in the order in which rules add them, each with the identity of its output. -/
abbrev Trail (α : Type) := List (Nat × Activated α)

namespace Trail

/-- The activated terms of one output. -/
def on (t : Trail α) (id : Nat) : List (Activated α) := (t.filter fun a => a.1 == id).map Prod.snd

@[simp] theorem on_nil (id : Nat) : on ([] : Trail α) id = [] := rfl

@[simp] theorem on_append (t u : Trail α) (id : Nat) : on (t ++ u) id = t.on id ++ u.on id := by
  simp [on]

@[simp] theorem on_singleton (a : Activated α) (i id : Nat) :
    on [(i, a)] id = if i == id then [a] else [] := by
  cases h : i == id <;> simp [on, h]

end Trail

/-! ## §2 Stores that receive trails -/

namespace OutputVariable

/-- The output with more activated terms. -/
def receive (v : OutputVariable α) (as : List (Activated α)) : OutputVariable α :=
  { v with fuzzyOutput := { v.fuzzyOutput with terms := v.fuzzyOutput.terms ++ as } }

@[simp] theorem receive_toVariable (v : OutputVariable α) (as : List (Activated α)) :
    (v.receive as).toVariable = v.toVariable := rfl

@[simp] theorem receive_nil (v : OutputVariable α) : v.receive [] = v := by
  simp [receive]

@[simp] theorem receive_receive (v : OutputVariable α) (as bs : List (Activated α)) :
    (v.receive as).receive bs = v.receive (as ++ bs) := by
  simp [receive]

end OutputVariable

namespace Variables

/-- The store with a trail at the end of its fuzzy outputs. -/
def receive (vs : Variables α) (t : Trail α) : Variables α :=
  { vs with
    outputs := vs.outputs.map fun v => v.receive (t.on v.id)
    removedOutputs := vs.removedOutputs.map fun v => v.receive (t.on v.id) }

@[simp] theorem receive_nil (vs : Variables α) : vs.receive [] = vs := by
  simp [receive]

/-- Trails are received one after the other. -/
@[simp] theorem receive_receive (vs : Variables α) (t u : Trail α) :
    (vs.receive t).receive u = vs.receive (t ++ u) := by
  simp [receive, Function.comp_def]

@[simp] theorem surroundings_receive (vs : Variables α) (t : Trail α) :
    (vs.receive t).surroundings = vs.surroundings := by
  simp [surroundings, receive, Function.comp_def]

@[simp] theorem input?_receive (vs : Variables α) (t : Trail α) (id : Nat) :
    (vs.receive t).input? id = vs.input? id := rfl

/-- The output that is found for an identity has it. -/
theorem id_of_output? {vs : Variables α} {id : Nat} {v : OutputVariable α}
    (h : vs.output? id = some v) : v.id = id := by
  unfold output? at h
  have hid := List.find?_some h
  exact eq_of_beq hid

/-- An output that is found has received what the trail holds for its identity. -/
@[simp] theorem output?_receive (vs : Variables α) (t : Trail α) (id : Nat) :
    (vs.receive t).output? id = (vs.output? id).map fun v => v.receive (t.on id) := by
  -- receiving keeps identities, so that the same output is found
  have hfind : (vs.receive t).output? id =
      (vs.output? id).map fun v => v.receive (t.on v.id) := by
    simp only [output?, receive, ← List.map_append, List.find?_map]
    rfl
  rw [hfind]
  cases h : vs.output? id with
  | none => rfl
  | some v => rw [Option.map_some, Option.map_some, id_of_output? h]

@[simp] theorem isEnabled_receive (vs : Variables α) (t : Trail α) (r : VariableRef) :
    (vs.receive t).isEnabled r = vs.isEnabled r := by
  cases h : r.isOutput <;> simp [isEnabled, h, Function.comp_def]

/-- One more activated term is a trail of length one. -/
theorem modifyOutput_activate (vs : Variables α) (id : Nat) (a : Activated α) :
    vs.modifyOutput id (fun v => v.activate a) = vs.receive [(id, a)] := by
  -- an output of another identity receives nothing
  have hv : ∀ v : OutputVariable α,
      (if v.id == id then v.activate a else v) = v.receive (Trail.on [(id, a)] v.id) := by
    intro v
    rw [Trail.on_singleton, BEq.comm (a := id)]
    cases v.id == id with
    | true => rfl
    | false => exact (OutputVariable.receive_nil v).symm
  simp only [modifyOutput, receive, hv]

end Variables

/-! ## §3 Conclusions -/

namespace Variables

/-- The term that a conclusion activates. -/
def term? (vs : Variables α) (p : Proposition) : Option (Term α) :=
  (vs.output? p.subject.id).bind fun v => p.term.bind fun t => v.termById? t.id

@[simp] theorem term?_receive (vs : Variables α) (t : Trail α) (p : Proposition) :
    (vs.receive t).term? p = vs.term? p := by
  rw [term?, output?_receive]
  cases h : vs.output? p.subject.id <;> simp [term?, h, Variable.termById?]

variable [Scalar α]

/-- What a conclusion adds at a degree: nothing on a disabled variable, otherwise its term at the degree
modified by its hedges. -/
def additions (vs : Variables α) (implication : Option TNorm) (degree : α) (p : Proposition) :
    Except Error (Trail α) :=
  if !vs.isEnabled p.subject then .ok []
  else do
    let d ← Hedge.applyAll p.hedges degree
    return ((vs.term? p).map fun u => (p.subject.id, ⟨u, d, implication⟩)).toList

@[simp] theorem additions_receive (vs : Variables α) (t : Trail α) (implication : Option TNorm)
    (degree : α) : (vs.receive t).additions implication degree = vs.additions implication degree := by
  funext p
  simp [additions]

/-- Activating a conclusion is receiving what it adds. -/
theorem conclude_eq (vs : Variables α) (implication : Option TNorm) (degree : α) (p : Proposition) :
    vs.conclude implication degree p = vs.receive <$> vs.additions implication degree p := by
  unfold conclude additions
  split
  · simp
  · cases Hedge.applyAll p.hedges degree with
    | error f => rfl
    | ok d =>
      have hterm : ((vs.output? p.subject.id).bind fun v => p.term.bind fun t => v.termById? t.id) =
          vs.term? p := rfl
      rw [hterm]
      cases vs.term? p with
      | none => simp
      | some u => simp [modifyOutput_activate]

end Variables

namespace Rule

variable [Scalar α]

/-- What conclusions add at a degree, in order. -/
def additions (vs : Variables α) (implication : Option TNorm) (degree : α) (ps : List Proposition) :
    Except Error (Trail α) :=
  List.flatten <$> ps.mapM (vs.additions implication degree)

@[simp] theorem additions_receive (vs : Variables α) (t : Trail α) (implication : Option TNorm)
    (degree : α) (ps : List Proposition) :
    additions (vs.receive t) implication degree ps = additions vs implication degree ps := by
  simp [additions]

theorem additions_cons (vs : Variables α) (implication : Option TNorm) (degree : α) (p : Proposition)
    (ps : List Proposition) :
    additions vs implication degree (p :: ps) = (do
      let t ← vs.additions implication degree p
      let u ← additions vs implication degree ps
      return t ++ u) := by
  rw [additions, additions, List.mapM_cons]
  cases vs.additions implication degree p with
  | error e => rfl
  | ok t => cases ps.mapM (vs.additions implication degree) <;> rfl

/-- No conclusion sees what another one of the same rule added, so that all additions can be computed before
the first one is received. -/
theorem value_conclude (implication : Option TNorm) (degree : α) (ps : List Proposition)
    (vs : Variables α) :
    (conclude implication degree ps vs : Outcome (Event α) _).value =
      vs.receive <$> additions vs implication degree ps := by
  induction ps generalizing vs with
  | nil => simp [conclude, Outcome.each, additions]
  | cons p ps ih =>
    -- the conclusions after the first one start from what it added
    unfold conclude at ih ⊢
    rw [additions_cons, Outcome.each, Outcome.value_andThen, Variables.conclude_eq]
    cases vs.additions implication degree p with
    | error e => rfl
    | ok t =>
      refine (ih (vs.receive t)).trans ?_
      rw [additions_receive]
      cases additions vs implication degree ps <;> simp

end Rule

end FuzzyInference
