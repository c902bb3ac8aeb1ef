import FuzzyInference.Proofs.Assigning

/-!
# Calls that are stopped

A call of a controller writes as it goes. It assigns inputs one after the other, and at the end of a cycle each
output writes its previous value down before its new value is computed. Nothing is taken back when the call is
stopped, which can happen at the name of an input, in a block or at an output. So a call that is stopped leaves
writes behind, and which ones depends on the place alone:

* at a name, the inputs named before have their values, and the outputs are as they were;
* in a block, all inputs have their values, and the values of the outputs are as they were;
* at an output, the outputs before have new values, this one has only written its previous value down, and those
  after it have not been reached.

The cycle is not counted in any case.

The plan of this module:

* the values of outputs, and what blocks do to them;
* defuzzification that is stopped;
* cycles and calls that are stopped.

## Main statements

* `Engine.exists_of_defuzzifyFrom_error`: the output at which defuzzification is stopped
* `Engine.stopsAt_process`: a cycle that is stopped
* `Controller.process_interrupted`: a call that is stopped
-/

namespace FuzzyInference

open Scalar Checked

variable {α : Type}

/-! ## §1 The values of outputs -/

namespace OutputVariable

/-- The value and the previous value. -/
def values (v : OutputVariable α) : α × α := (v.value, v.previousValue)

/-- The output without the terms that rules activated. -/
def unfired (v : OutputVariable α) : OutputVariable α :=
  { v with fuzzyOutput := { v.fuzzyOutput with terms := [] } }

theorem map_values_of_unfired {us vs : List (OutputVariable α)} (h : us.map unfired = vs.map unfired) :
    us.map values = vs.map values := by
  have hvalues := congrArg (List.map values) h
  rwa [List.map_map, List.map_map] at hvalues

/-- Outputs that differ in activated terms only stand in the same places. -/
theorem exists_split_of_unfired {us ws vs : List (OutputVariable α)} {u : OutputVariable α}
    (h : (us ++ u :: ws).map unfired = vs.map unfired) :
    ∃ before v after, vs = before ++ v :: after ∧ before.map unfired = us.map unfired ∧ u.unfired = v.unfired ∧
      ws.map unfired = after.map unfired := by
  rw [List.map_append, List.map_cons] at h
  obtain ⟨before, rest, hvs, hbefore, hrest⟩ := List.map_eq_append_iff.1 h.symm
  obtain ⟨v, after, rfl, hv, hafter⟩ := List.map_eq_cons_iff.1 hrest
  exact ⟨before, v, after, hvs, hbefore, hv.symm, hafter.symm⟩

variable [Scalar α]

theorem values_prepare_of_unfired {u v : OutputVariable α} (h : u.unfired = v.unfired) :
    u.prepare.values = v.prepare.values :=
  congrArg (fun w => w.prepare.values) h

/-- The values of an output that was defuzzified: the value that it had is remembered if it is a number, and the
new value is one that the terms gave which were activated in this cycle, brought into the range where that is
locked. -/
structure Settles (v : OutputVariable α) (p : α × α) : Prop where
  value : ∃ u around x, unfired u = v.unfired ∧ u.prepare.rawValue around = .ok x ∧ p.1 = v.settleValue x
  previous : p.2 = if isNaN v.value then v.previousValue else v.value

/-- Terms that were activated before do not matter. -/
theorem settles_unfired (v : OutputVariable α) (p : α × α) : v.unfired.Settles p ↔ v.Settles p :=
  ⟨fun h => ⟨h.value, h.previous⟩, fun h => ⟨h.value, h.previous⟩⟩

theorem forall₂_settles_unfired {vs : List (OutputVariable α)} {ps : List (α × α)} :
    List.Forall₂ Settles (vs.map unfired) ps ↔ List.Forall₂ Settles vs ps := by
  rw [List.forall₂_map_left_iff]
  constructor
  · exact fun h => h.imp fun v p => (v.settles_unfired p).1
  · exact fun h => h.imp fun v p => (v.settles_unfired p).2

theorem settles_of_defuzzify {v w : OutputVariable α} {around : Option (Surroundings α)}
    (h : v.defuzzify around = (w, .ok ())) : v.Settles w.values := by
  obtain ⟨x, hraw, rfl⟩ := exists_of_defuzzify_ok h
  exact ⟨⟨v, around, x, rfl, hraw, rfl⟩, rfl⟩

/-- Outputs that were defuzzified settled, whatever terms they had before these were activated. -/
theorem settles_of_defuzzified {us vs done : List (OutputVariable α)} (hfired : vs.map unfired = us.map unfired)
    (h : List.Forall₂ (fun u w => ∃ around, u.defuzzify around = (w, .ok ())) us done) :
    List.Forall₂ Settles vs (done.map values) := by
  have hus : List.Forall₂ Settles us (done.map values) := by
    rw [List.forall₂_map_right_iff]
    exact h.imp fun u w hw => settles_of_defuzzify hw.choose_spec
  rwa [← forall₂_settles_unfired, hfired, forall₂_settles_unfired]

end OutputVariable

namespace Engine

open OutputVariable

variable [Scalar α]

/-- The blocks do nothing to outputs but activate terms. -/
theorem unfired_infer (e : Engine α) : e.infer.state.outputs.map unfired = e.outputs.map unfired := by
  have hstore := congrArg Variables.outputs (frame_activateBlocks e.blocks (clearOutputs e.store)).1
  have hcleared : (clearOutputs e.store).unfired.outputs = e.outputs.map unfired := by
    show (e.outputs.map clearFuzzyOutput).map unfired = e.outputs.map unfired
    rw [List.map_map]
    rfl
  exact hstore.trans hcleared

/-! ## §2 Defuzzification -/

/-- Defuzzification that is stopped: the outputs before one are done, it is prepared, and those after it are as
they were. -/
theorem exists_of_defuzzifyFrom_error {vs : Variables α} {before rest : List (OutputVariable α)} {err : Error}
    (h : (defuzzifyFrom vs before rest).error = some err) :
    ∃ us v ws done around, rest = us ++ v :: ws ∧
      List.Forall₂ (fun u w => ∃ around, u.defuzzify around = (w, .ok ())) us done ∧
      v.prepare.rawValue around = .error err ∧
      (defuzzifyFrom vs before rest).state.outputs = before ++ done ++ v.prepare :: ws := by
  -- outputs move from the rest to those before it, as they are defuzzified
  induction rest generalizing before with
  | nil => cases h
  | cons v rest ih =>
    cases hraw : v.prepare.rawValue (surroundingsAt vs before v rest) with
    | error e =>
      have hv := defuzzify_of_error hraw
      -- the first output is refused, nothing comes before it
      obtain ⟨herror, hstate⟩ := defuzzifyFrom_cons_of_error (congrArg Prod.snd hv)
      rw [herror] at h
      cases h
      refine ⟨[], v, rest, [], _, rfl, .nil, hraw, ?_⟩
      rw [hstate, hv, List.append_nil]
    | ok x =>
      have hv := defuzzify_of_ok hraw
      obtain ⟨herror, hstate⟩ := defuzzifyFrom_cons_of_ok (congrArg Prod.snd hv)
      rw [herror] at h
      obtain ⟨us, u, ws, done, around, rfl, hdone, hu, houtputs⟩ := ih h
      refine ⟨v :: us, u, ws, _ :: done, around, rfl, .cons ⟨_, hv⟩ hdone, hu, ?_⟩
      rw [hstate, houtputs, hv]
      simp only [List.append_assoc, List.cons_append, List.nil_append]

/-- Only a cycle that is completed changes the state of the engine. -/
theorem state_conclude_of_error {e : Engine α} {err : Error} (h : e.conclude.error = some err) :
    e.conclude.state = { e with store := (defuzzifyOutputs e.store).state } := by
  rw [(conclude_eq e).1] at h
  have herror : ((defuzzifyOutputs e.store).map fun store => { e with store }).error = some err := h
  rw [conclude, Outcome.andThen_stopped _ _ herror]
  rfl

/-! ## §3 Cycles and calls -/

/-- Where an engine is stopped, and the values of its outputs then. The pairs are those that were not assigned
before. -/
inductive StopsAt (e : Engine α) (err : Error) : List (Name × α) → List (α × α) → Prop
  /-- At the name of an input that is unknown. -/
  | name {p : Name × α} {after : List (Name × α)} (unknown : e.placeOf p.1 = .error err) :
      StopsAt e err (p :: after) (e.outputs.map values)
  /-- In a block. -/
  | block (refused : e.infer.error = some err) : StopsAt e err [] (e.outputs.map values)
  /-- At an output, which cannot be defuzzified with the terms that were activated. -/
  | output {before after : List (OutputVariable α)} {u v : OutputVariable α} {done : List (α × α)}
      {around : Option (Surroundings α)} (split : e.outputs = before ++ v :: after)
      (settled : List.Forall₂ OutputVariable.Settles before done) (fired : u.unfired = v.unfired)
      (refused : u.prepare.rawValue around = .error err) :
      StopsAt e err [] (done ++ (v.value, if isNaN v.value then v.previousValue else v.value) :: after.map values)

/-- The end of a cycle that is stopped: one of the outputs is refused. -/
theorem stopsAt_conclude {e : Engine α} {err : Error} (h : e.infer.state.conclude.error = some err) :
    e.infer.state.conclude.state.state = e.state ∧
      e.StopsAt err [] (e.infer.state.conclude.state.outputs.map values) := by
  have hconclude := state_conclude_of_error h
  rw [(conclude_eq _).1] at h
  obtain ⟨us, u, ws, done, around, hsplit, hdone, hrefused, houtputs⟩ := exists_of_defuzzifyFrom_error h
  -- the outputs as they were before the blocks activated terms for them
  have hunfired := e.unfired_infer
  rw [show e.infer.state.outputs = us ++ u :: ws from hsplit] at hunfired
  obtain ⟨before, v, after, hbefore, hus, hu, hws⟩ := exists_split_of_unfired hunfired
  have hvalues : e.infer.state.conclude.state.outputs.map values =
      done.map values ++ v.prepare.values :: after.map values := by
    have hstate : e.infer.state.conclude.state.outputs = done ++ u.prepare :: ws := by
      rw [hconclude]
      exact houtputs
    rw [hstate, List.map_append, List.map_cons, values_prepare_of_unfired hu, map_values_of_unfired hws]
  rw [hvalues]
  refine ⟨?_, .output hbefore (settles_of_defuzzified hus hdone) hu hrefused⟩
  rw [hconclude]
  rfl

/-- A cycle that is stopped leaves the inputs and the state alone. -/
theorem stopsAt_process {e : Engine α} {err : Error} (h : e.process.error = some err) :
    e.process.state.inputs = e.inputs ∧ e.process.state.state = e.state ∧
      e.StopsAt err [] (e.process.state.outputs.map values) := by
  constructor
  · -- the form of the engine has the inputs
    show e.process.state.form.inputs = e.form.inputs
    rw [form_process]
  cases hinfer : e.infer.error with
  | some err' =>
    obtain ⟨herror, hstate⟩ := process_of_infer_error hinfer
    rw [herror] at h
    cases h
    rw [hstate, map_values_of_unfired e.unfired_infer]
    exact ⟨rfl, .block hinfer⟩
  | none =>
    obtain ⟨herror, hstate⟩ := process_of_infer_done hinfer
    rw [herror] at h
    rw [hstate]
    exact stopsAt_conclude h

end Engine

namespace Controller

open Engine

variable [Scalar α]

/-- A call that is stopped is not counted, and leaves the state of the engine alone. The names of the assignment are
known up to some place. The inputs that these mean have the values that were given last, brought into their ranges
where these are locked, and the others have the values that they had. The outputs have the values that belong to
the place where the call was stopped. -/
theorem process_interrupted {c : Controller α} (hids : c.engine.InputsNumbered) {inputs : List (Name × α)}
    {err : Error} (h : (c.process inputs).error = some err) :
    (c.process inputs).state.cycle = c.cycle ∧
    (c.process inputs).state.engine.state = c.engine.state ∧
    ∃ known rest ws, lastValues inputs = known ++ rest ∧ c.engine.writes known = .ok ws ∧
      (∀ i, (c.process inputs).state.engine.inputs[i]? =
        c.engine.inputs[i]?.map fun v => ((ws.reverse.lookup i).map fun x => v.assign x).getD v) ∧
      (c.engine.write ws).StopsAt err rest
        ((c.process inputs).state.engine.outputs.map OutputVariable.values) := by
  simp only [← getElem?_inputs_write]
  cases hwrites : c.engine.writes (lastValues inputs) with
  | error e =>
    obtain ⟨known, p, after, ws, hsplit, hknown, hp⟩ := exists_of_writes_error hwrites
    have hassign := assignInputs_of_error hids hknown hp after
    rw [← hsplit] at hassign
    obtain ⟨herror, hengine, hcycle⟩ := process_unassigned hassign
    rw [herror] at h
    cases h
    rw [hcycle, hengine]
    -- writes do not make names known
    rw [← c.engine.placeOf_write ws] at hp
    exact ⟨rfl, rfl, known, p :: after, ws, hsplit, hknown, fun i => rfl, .name hp⟩
  | ok ws =>
    -- all names are known, so that the cycle of the engine is stopped
    obtain ⟨herror, hengine, hcycle⟩ := process_assigned (assignInputs_of_ok hids hwrites)
    rw [herror] at h
    obtain ⟨hinputs, hstate, hstops⟩ := stopsAt_process h
    rw [hcycle, hengine, hinputs, hstate, h]
    exact ⟨rfl, rfl, lastValues inputs, [], ws, (List.append_nil _).symm, hwrites, fun i => rfl, hstops⟩

/-- A document of two outputs, of which the second has no defuzzifier. -/
def halfDefuzzifiedDocument : Value :=
  .table
    [("engine", .table [("implication", .text "Minimum")]),
      ("input", .list [.table
        [("name", .text "Ambient"), ("terms", .list [.table
          [("type", .text "Rectangle"), ("name", .text "DARK"), ("parameters", .list [.float 0.0, .float 0.5])]])]]),
      ("output", .list [
        .table [("name", .text "Power"), ("defuzzifier", .text "WeightedAverage"), ("terms", .list [.table
          [("type", .text "Constant"), ("name", .text "HIGH"), ("parameters", .list [.float 1.5])]])],
        .table [("name", .text "Fan"), ("terms", .list [.table
          [("type", .text "Constant"), ("name", .text "ON"), ("parameters", .list [.float 1.0])]])]]),
      ("rule_block", .list [.table
        [("rules", .list [.text "if Ambient is DARK then Power is HIGH and Fan is ON"])]])]

/-- The controller of the document, before its first cycle. -/
def halfDefuzzified : Controller Float := (ofDocument .standard halfDefuzzifiedDocument).state

/-- The call is stopped at the second output, when the first one has its value. -/
theorem process_interrupted_halfDefuzzified :
    halfDefuzzified.engine.InputsNumbered ∧
    ∃ err, (halfDefuzzified.process [(.text "Ambient", 0.25)]).error = some err ∧
      (halfDefuzzified.process [(.text "Ambient", 0.25)]).state.cycle = halfDefuzzified.cycle ∧
      (halfDefuzzified.process [(.text "Ambient", 0.25)]).state.engine.state = halfDefuzzified.engine.state := by
  have hids : halfDefuzzified.engine.InputsNumbered := by
    show (halfDefuzzified.engine.inputs.map fun v => v.id).Nodup
    decide +kernel
  have hstopped : (halfDefuzzified.process [(.text "Ambient", 0.25)]).error.isSome = true := by decide +kernel
  obtain ⟨err, herr⟩ := Option.isSome_iff_exists.1 hstopped
  obtain ⟨hcycle, hstate, -⟩ := process_interrupted hids herr
  exact ⟨hids, err, herr, hcycle, hstate⟩

/-- The input and the first output had no values before the call that is stopped, and have values after it. -/
theorem leftovers_halfDefuzzified :
    (ofDocument .standard halfDefuzzifiedDocument).error = none ∧
    (halfDefuzzified.process [(.text "Ambient", 0.25)]).error.any Error.isFuzzy = true ∧
    ¬((halfDefuzzified.process [(.text "Ambient", 0.25)]).state.engine.inputs.map fun v => v.value) =
      halfDefuzzified.engine.inputs.map (fun v => v.value) ∧
    ¬((halfDefuzzified.process [(.text "Ambient", 0.25)]).state.engine.outputs.map OutputVariable.values) =
      halfDefuzzified.engine.outputs.map OutputVariable.values := by
  refine ⟨by decide +kernel, by decide +kernel, fun hinputs => ?_, fun houtputs => ?_⟩
  · have hknown := congrArg (List.map fun x => isNaN x) hinputs
    exact absurd hknown (by decide +kernel)
  · have hknown := congrArg (List.map fun p => isNaN p.1) houtputs
    exact absurd hknown (by decide +kernel)

end Controller

end FuzzyInference
