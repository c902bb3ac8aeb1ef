import FuzzyInference.Proofs.Firing

/-!
# What a cycle computes

A cycle in terms of values: the trail that the blocks leave on cleared fuzzy outputs, and the defuzzification
of the outputs that received it.

The plan of this module:

* what the defuzzification of outputs leaves alone;
* the value of a cycle.

## Main statements

* `Engine.map_outputs_defuzzifyFrom`: what a single output keeps, all of them keep
* `Engine.exists_outputs_defuzzifyFrom`: the outputs one by one
* `Engine.value_process`: the value of a cycle
-/

namespace FuzzyInference

open Scalar Checked

variable {α : Type} [Scalar α]

/-! ## §1 Defuzzification -/

namespace OutputVariable

/-- The value of an active output is that of its defuzzifier. -/
theorem rawValue_of_active {v : OutputVariable α} {d : Defuzzifier} (hactive : v.isActive = true)
    (hdefuzzifier : v.defuzzifier = some d) (around : Option (Surroundings α)) :
    v.rawValue around = d.defuzzify around (.aggregated v.fuzzyOutput) v.minimum v.maximum := by
  rw [rawValue, if_pos hactive, hdefuzzifier]

theorem defuzzify_of_error {v : OutputVariable α} {around : Option (Surroundings α)} {e : Error}
    (h : v.prepare.rawValue around = .error e) : v.defuzzify around = (v.prepare, .error e) := by
  simp only [defuzzify, h]

theorem defuzzify_of_ok {v : OutputVariable α} {around : Option (Surroundings α)} {x : α}
    (h : v.prepare.rawValue around = .ok x) :
    v.defuzzify around = ({ v.prepare with value := v.prepare.settleValue x }, .ok ()) := by
  simp only [defuzzify, h]

/-- A defuzzification that is not refused settles the raw value of the prepared output. -/
theorem exists_of_defuzzify_ok {v w : OutputVariable α} {around : Option (Surroundings α)} {n : Unit}
    (h : v.defuzzify around = (w, .ok n)) :
    ∃ x, v.prepare.rawValue around = .ok x ∧ w = { v.prepare with value := v.prepare.settleValue x } := by
  cases hraw : v.prepare.rawValue around with
  | error e =>
    rw [defuzzify_of_error hraw] at h
    cases h
  | ok x =>
    rw [defuzzify_of_ok hraw] at h
    exact ⟨x, rfl, (Prod.mk.inj h).1.symm⟩

/-- Defuzzification prepares an output and changes nothing else but its value. -/
theorem defuzzify_fst (v : OutputVariable α) (around : Option (Surroundings α)) :
    ∃ x, (v.defuzzify around).1 = { v.prepare with value := x } := by
  cases h : v.prepare.rawValue around with
  | error e => exact ⟨v.value, by rw [defuzzify_of_error h]; rfl⟩
  | ok x => exact ⟨v.prepare.settleValue x, by rw [defuzzify_of_ok h]⟩

end OutputVariable

namespace Engine

@[simp] theorem state_defuzzifyOutput (around : Option (Surroundings α)) (v : OutputVariable α) :
    (defuzzifyOutput around v).state = (v.defuzzify around).1 := by
  unfold defuzzifyOutput
  rcases v.defuzzify around with ⟨w, _ | _⟩ <;> rfl

theorem error_defuzzifyOutput_eq_none {around : Option (Surroundings α)} {v : OutputVariable α}
    (h : (v.defuzzify around).2 = .ok ()) : (defuzzifyOutput around v).error = none := by
  unfold defuzzifyOutput
  rcases hv : v.defuzzify around with ⟨w, _ | _⟩
  · rw [hv] at h
    cases h
  · rfl

theorem error_defuzzifyOutput_eq_some {around : Option (Surroundings α)} {v : OutputVariable α}
    {e : Error} (h : (v.defuzzify around).2 = .error e) :
    (defuzzifyOutput around v).error = some e := by
  unfold defuzzifyOutput
  rcases hv : v.defuzzify around with ⟨w, _ | _⟩
  · rw [hv] at h
    cases h
    rfl
  · rw [hv] at h
    cases h

/-- What the terms of an output see while it is defuzzified: the new values of the outputs before it and the
old ones of the rest. -/
def surroundingsAt (vs : Variables α) (before : List (OutputVariable α)) (v : OutputVariable α)
    (rest : List (OutputVariable α)) : Option (Surroundings α) :=
  some ({ vs with outputs := before ++ v :: rest } : Variables α).surroundings

/-- An output that is refused ends the defuzzification, and stays prepared. -/
theorem defuzzifyFrom_cons_of_error {vs : Variables α} {before : List (OutputVariable α)}
    {v : OutputVariable α} {rest : List (OutputVariable α)} {e : Error}
    (h : (v.defuzzify (surroundingsAt vs before v rest)).2 = .error e) :
    (defuzzifyFrom vs before (v :: rest)).error = some e ∧
      (defuzzifyFrom vs before (v :: rest)).state =
        { vs with outputs := before ++ (v.defuzzify (surroundingsAt vs before v rest)).1 :: rest } := by
  have herror : ((defuzzifyOutput (surroundingsAt vs before v rest) v).map fun w =>
      ({ vs with outputs := before ++ w :: rest } : Variables α)).error = some e := by
    rw [Outcome.error_map, error_defuzzifyOutput_eq_some h]
  unfold defuzzifyFrom
  constructor
  · exact (congrArg Outcome.error (Outcome.andThen_stopped _ _ herror)).trans herror
  · refine (congrArg Outcome.state (Outcome.andThen_stopped _ _ herror)).trans ?_
    rw [Outcome.state_map, state_defuzzifyOutput]

/-- An output that is defuzzified is followed by the others. -/
theorem defuzzifyFrom_cons_of_ok {vs : Variables α} {before : List (OutputVariable α)}
    {v : OutputVariable α} {rest : List (OutputVariable α)} {u : Unit}
    (h : (v.defuzzify (surroundingsAt vs before v rest)).2 = .ok u) :
    (defuzzifyFrom vs before (v :: rest)).error =
        (defuzzifyFrom vs (before ++ [(v.defuzzify (surroundingsAt vs before v rest)).1]) rest).error ∧
      (defuzzifyFrom vs before (v :: rest)).state =
        (defuzzifyFrom vs (before ++ [(v.defuzzify (surroundingsAt vs before v rest)).1]) rest).state := by
  have herror : ((defuzzifyOutput (surroundingsAt vs before v rest) v).map fun w =>
      ({ vs with outputs := before ++ w :: rest } : Variables α)).error = none := by
    rw [Outcome.error_map, error_defuzzifyOutput_eq_none h]
  -- the rest starts from the outputs that were defuzzified, not from the state of the first step
  rw [← state_defuzzifyOutput]
  exact ⟨Outcome.error_andThen_of_done herror _, Outcome.state_andThen_of_done herror _⟩

/-- What every single output keeps, all outputs keep, also when the defuzzification is stopped. -/
theorem map_outputs_defuzzifyFrom {β : Type} {f : OutputVariable α → β}
    (hf : ∀ around v, f (OutputVariable.defuzzify v around).1 = f v) (vs : Variables α)
    (before rest : List (OutputVariable α)) :
    (defuzzifyFrom vs before rest).state.outputs.map f = (before ++ rest).map f := by
  -- outputs move from the rest to those before it, one at a time
  induction rest generalizing before with
  | nil => simp [defuzzifyFrom, Outcome.done]
  | cons v rest ih =>
    cases h : (v.defuzzify (surroundingsAt vs before v rest)).2 with
    | error e =>
      rw [(defuzzifyFrom_cons_of_error h).2]
      simp [hf]
    | ok u =>
      rw [(defuzzifyFrom_cons_of_ok h).2, ih]
      simp [hf]

/-- Outputs are defuzzified in their places; those after one that is refused stay as they were. -/
theorem exists_outputs_defuzzifyFrom (vs : Variables α) (before rest : List (OutputVariable α)) :
    ∃ ws, (defuzzifyFrom vs before rest).state.outputs = before ++ ws ∧
      List.Forall₂ (fun v w => w = v ∨ ∃ around, w = (v.defuzzify around).1) rest ws ∧
      ((defuzzifyFrom vs before rest).error = none →
        List.Forall₂ (fun v w => ∃ around, v.defuzzify around = (w, .ok ())) rest ws) := by
  induction rest generalizing before with
  | nil => exact ⟨[], by simp [defuzzifyFrom, Outcome.done], .nil, fun _ => .nil⟩
  | cons v rest ih =>
    cases h : (v.defuzzify (surroundingsAt vs before v rest)).2 with
    | error e =>
      obtain ⟨herror, hstate⟩ := defuzzifyFrom_cons_of_error h
      rw [herror, hstate]
      exact ⟨_, rfl, .cons (.inr ⟨_, rfl⟩) (List.forall₂_same.2 fun w _ => .inl rfl), fun h => by cases h⟩
    | ok u =>
      obtain ⟨herror, hstate⟩ := defuzzifyFrom_cons_of_ok h
      obtain ⟨ws, hws, hall, hdone⟩ := ih (before ++ [(v.defuzzify (surroundingsAt vs before v rest)).1])
      rw [herror, hstate, hws, List.append_assoc]
      exact ⟨_, rfl, .cons (.inr ⟨_, rfl⟩) hall, fun hnone => .cons ⟨_, Prod.ext rfl h⟩ (hdone hnone)⟩

/-- Defuzzification changes nothing but the outputs. -/
theorem state_defuzzifyFrom (vs : Variables α) (before rest : List (OutputVariable α)) :
    (defuzzifyFrom vs before rest).state =
      { vs with outputs := (defuzzifyFrom vs before rest).state.outputs } := by
  induction rest generalizing before with
  | nil => rfl
  | cons v rest ih =>
    cases h : (v.defuzzify (surroundingsAt vs before v rest)).2 with
    | error e => rw [(defuzzifyFrom_cons_of_error h).2]
    | ok u =>
      rw [(defuzzifyFrom_cons_of_ok h).2]
      exact ih _

/-! ## §2 Cycles -/

/-- The end of a cycle changes nothing but the store and the state. -/
theorem conclude_eq (e : Engine α) :
    e.conclude.error = (defuzzifyOutputs e.store).error ∧
      ∃ s, e.conclude.state = { e with store := (defuzzifyOutputs e.store).state, state := s } := by
  unfold conclude
  cases h : (defuzzifyOutputs e.store).error with
  | some err =>
    have herror : ((defuzzifyOutputs e.store).map fun store => { e with store }).error = some err := h
    rw [Outcome.andThen_stopped _ _ herror]
    exact ⟨herror, e.state, rfl⟩
  | none =>
    have herror : ((defuzzifyOutputs e.store).map fun store => { e with store }).error = none := h
    rw [Outcome.error_andThen_of_done herror, Outcome.state_andThen_of_done herror]
    exact ⟨rfl, .evaluated, rfl⟩

/-- A cycle is stopped where its first part is. -/
theorem process_of_infer_error {e : Engine α} {err : Error} (h : e.infer.error = some err) :
    e.process.error = some err ∧ e.process.state = e.infer.state := by
  -- the report at the start changes nothing
  have hstart : ((Outcome.report (.cycleStarted e.name (inputValues e.store)) e).andThen infer).error =
      some err := (Outcome.error_andThen_of_done rfl _).trans h
  unfold process
  rw [Outcome.andThen_stopped _ _ hstart]
  exact ⟨hstart, Outcome.state_andThen_of_done rfl _⟩

/-- A cycle of which the first part is completed ends as its second part does. -/
theorem process_of_infer_done {e : Engine α} (h : e.infer.error = none) :
    e.process.error = e.infer.state.conclude.error ∧
      e.process.state = e.infer.state.conclude.state := by
  have hstart : ((Outcome.report (.cycleStarted e.name (inputValues e.store)) e).andThen infer).error =
      none := (Outcome.error_andThen_of_done rfl _).trans h
  have hstate : ((Outcome.report (.cycleStarted e.name (inputValues e.store)) e).andThen infer).state =
      e.infer.state := Outcome.state_andThen_of_done rfl _
  unfold process
  rw [Outcome.error_andThen_of_done hstart, Outcome.state_andThen_of_done hstart, hstate]
  exact ⟨rfl, rfl⟩

/-- The second part of a cycle leaves the blocks alone. -/
theorem blocks_process (e : Engine α) :
    e.process.state.blocks = (activateBlocks e.blocks (clearOutputs e.store)).state.2 := by
  cases h : e.infer.error with
  | some err =>
    rw [(process_of_infer_error h).2]
    rfl
  | none =>
    obtain ⟨-, s, hs⟩ := conclude_eq e.infer.state
    rw [(process_of_infer_done h).2, hs]
    rfl

/-- The value of the first part of a cycle. -/
theorem value_infer (e : Engine α) :
    e.infer.value = (fun p => { e with store := (clearOutputs e.store).receive p.1, blocks := p.2 }) <$>
      effects (clearOutputs e.store) e.blocks := by
  rw [infer, Outcome.value_map, value_activateBlocks]
  cases effects (clearOutputs e.store) e.blocks <;> rfl

/-- The value of a cycle: the outputs that received the trail of the blocks are defuzzified. -/
theorem value_process (e : Engine α) :
    e.process.value = (do
      let (t, blocks) ← effects (clearOutputs e.store) e.blocks
      let store ← (defuzzifyOutputs ((clearOutputs e.store).receive t)).value
      return { e with store, blocks, state := .evaluated }) := by
  rw [process, Outcome.value_andThen, Outcome.value_andThen, Outcome.value_report, ok_bind, value_infer]
  cases effects (clearOutputs e.store) e.blocks with
  | error err => rfl
  | ok p =>
    obtain ⟨t, blocks⟩ := p
    simp only [map_ok, ok_bind, conclude, Outcome.value_andThen, Outcome.value_map]
    cases (defuzzifyOutputs ((clearOutputs e.store).receive t)).value <;> rfl

/-- Where blocks add a trail, a cycle ends as the defuzzification of the outputs does that received it. -/
theorem process_of_effects {e : Engine α} {t : Trail α} {bs : List (RuleBlock α)}
    (h : effects (clearOutputs e.store) e.blocks = .ok (t, bs)) :
    e.process.error = (defuzzifyOutputs ((clearOutputs e.store).receive t)).error ∧
      e.process.state.store = (defuzzifyOutputs ((clearOutputs e.store).receive t)).state := by
  have hinfer := value_infer e
  rw [h, map_ok] at hinfer
  obtain ⟨herror, hstate⟩ := Outcome.value_eq_ok_iff.1 hinfer
  obtain ⟨hprocess, hend⟩ := process_of_infer_done herror
  obtain ⟨hconclude, s, hs⟩ := conclude_eq e.infer.state
  rw [hprocess, hend, hconclude, hs, hstate]
  exact ⟨rfl, rfl⟩

end Engine

end FuzzyInference
