import FuzzyInference.Proofs.Cycle

/-!
# What a cycle leaves alone

The blocks change nothing of an engine but the activated terms in its fuzzy outputs, and the degrees and
marks of its rules. The defuzzification that follows changes the values of outputs and the ranges of their
fuzzy outputs. All of this is forgotten in the *form* of an engine, which a cycle therefore keeps, whether it
is completed or stopped.

The plan of this module:

* what the blocks leave alone;
* the form of an engine.

## Main statements

* `RuleBlock.frame_activate`, `Engine.frame_activateBlocks`: the blocks
* `Engine.form_process`: a whole cycle
-/

namespace FuzzyInference

open Scalar

variable {α : Type}

/-! ## §1 Blocks -/

/-- The variables with empty fuzzy outputs, also those of outputs that were removed. -/
def Variables.unfired (vs : Variables α) : Variables α :=
  { vs with
    outputs := vs.outputs.map fun v => { v with fuzzyOutput := { v.fuzzyOutput with terms := [] } }
    removedOutputs := vs.removedOutputs.map fun v =>
      { v with fuzzyOutput := { v.fuzzyOutput with terms := [] } } }

@[simp] theorem Variables.unfired_receive (vs : Variables α) (t : Trail α) :
    (vs.receive t).unfired = vs.unfired := by
  simp only [receive, unfired, List.map_map]
  rfl

variable [Scalar α]

/-- The block whose rules forgot their degrees and whether they were triggered. -/
def RuleBlock.deactivate (b : RuleBlock α) : RuleBlock α := { b with rules := b.rules.map Rule.deactivate }

/-- What firing rules leaves alone. -/
def RuleBlock.frame (s : Variables α × RuleBlock α) : Variables α × RuleBlock α :=
  (s.1.unfired, s.2.deactivate)

theorem Rule.unfired_conclude (implication : Option TNorm) (degree : α) (ps : List Proposition)
    (vs : Variables α) :
    (conclude implication degree ps vs : Outcome (Event α) _).state.unfired = vs.unfired := by
  refine Outcome.state_each_eq (f := Variables.unfired) (fun p ws => ?_) ps vs
  rw [Variables.conclude_eq]
  cases ws.additions implication degree p with
  | error e => rfl
  | ok t => exact ws.unfired_receive t

theorem Rule.frame_trigger (implication : Option TNorm) (vs : Variables α) (r : Rule α) :
    (trigger implication vs r).state.1.unfired = vs.unfired ∧
      (trigger implication vs r).state.2.deactivate = r.deactivate := by
  unfold trigger
  split
  · exact ⟨rfl, rfl⟩
  · split
    · -- the mark is set in a step of its own, after the conclusions
      have hconclude := unfired_conclude implication r.degree r.conclusions vs
      constructor
      · refine (Outcome.state_andThen_eq (f := fun s : Variables α × Rule α => s.1.unfired)
          (fun s => rfl) _).trans hconclude
      · exact Outcome.state_andThen_eq (f := fun s : Variables α × Rule α => s.2.deactivate)
          (fun s => rfl) _
    · exact ⟨rfl, rfl⟩

namespace RuleBlock

theorem frame_fire (p : α × Nat) (s : Variables α × RuleBlock α) : frame (fire p s).state = frame s := by
  obtain ⟨vs, b⟩ := s
  unfold fire
  cases hr : b.rules[p.2]? with
  | none => simp [hr, Outcome.done]
  | some r =>
    obtain ⟨hstore, hrule⟩ := Rule.frame_trigger b.implication vs { r with degree := p.1 }
    -- the rule comes back to its place, and without degree and mark it is the one that was there
    have hset : (b.rules.map Rule.deactivate).set p.2 r.deactivate = b.rules.map Rule.deactivate := by
      refine List.ext_getElem? fun j => ?_
      rw [List.getElem?_set]
      split
      next hj =>
        subst hj
        have hlt : p.2 < b.rules.length := (List.getElem?_eq_some_iff.1 hr).1
        rw [List.length_map, if_pos hlt, List.getElem?_map, hr]
        rfl
      next => rfl
    simp only [hr, Outcome.state_map, frame, deactivate, setRule, List.map_set, hstore, hrule]
    rw [show Rule.deactivate { r with degree := p.1 } = r.deactivate from rfl, hset]

theorem frame_fireAll (ps : List (α × Nat)) (s : Variables α × RuleBlock α) :
    frame (fireAll ps s).state = frame s :=
  Outcome.state_each_eq frame_fire ps s

theorem deactivate_evaluateFrom (vs : Variables α) (b : RuleBlock α) (n : Nat) (rs : List (Rule α)) :
    (evaluateFrom vs b n rs).1.rules.map Rule.deactivate = rs.map Rule.deactivate := by
  induction rs generalizing n with
  | nil => rfl
  | cons r rs ih =>
    unfold evaluateFrom
    split
    · split
      -- the rule that stops the phase is reset, those after it are not touched
      · rfl
      · rw [List.map_cons, List.map_cons, ih]
        rfl
    · rw [List.map_cons, List.map_cons, ih]

theorem frame_run (vs : Variables α) (b : RuleBlock α) : frame (b.run vs).state = frame (vs, b) := by
  have hevaluated : frame (vs, ({ b with rules := (b.evaluateAll vs).1.rules } : RuleBlock α)) =
      frame (vs, b) := by
    simp only [frame, deactivate, evaluateAll, deactivate_evaluateFrom]
  unfold run
  generalize b.evaluateAll vs = outcome at hevaluated ⊢
  obtain ⟨evaluated, error⟩ := outcome
  cases error with
  -- a first phase that is stopped has changed some of the rules already
  | some e => exact hevaluated
  | none =>
    refine (Outcome.state_andThen_eq (f := frame) (fun s => frame_fireAll _ s) _).trans ?_
    split
    · exact hevaluated
    · exact hevaluated

/-- A block adds activated terms to the fuzzy outputs and sets degrees and marks. -/
theorem frame_activate (vs : Variables α) (b : RuleBlock α) :
    frame (b.activate vs).state = frame (vs, b) := by
  unfold activate
  split
  · rw [Outcome.state_andThen_of_done rfl]
    exact b.frame_run vs
  · rfl

end RuleBlock

namespace Engine

theorem activateBlocks_cons_of_error {b : RuleBlock α} {rest : List (RuleBlock α)} {vs : Variables α}
    {e : Error} (h : (b.activate vs).error = some e) :
    (activateBlocks (b :: rest) vs).state = ((b.activate vs).state.1, (b.activate vs).state.2 :: rest) := by
  rw [activateBlocks, Outcome.andThen_stopped _ _ (by rw [Outcome.error_map]; exact h)]
  rfl

theorem activateBlocks_cons_of_done {b : RuleBlock α} {rest : List (RuleBlock α)} {vs : Variables α}
    (h : (b.activate vs).error = none) :
    (activateBlocks (b :: rest) vs).state =
      ((activateBlocks rest (b.activate vs).state.1).state.1,
        (b.activate vs).state.2 :: (activateBlocks rest (b.activate vs).state.1).state.2) := by
  rw [activateBlocks, Outcome.state_andThen_of_done (by rw [Outcome.error_map]; exact h)]
  rfl

/-- All blocks together leave alone what each of them does. -/
theorem frame_activateBlocks (bs : List (RuleBlock α)) (vs : Variables α) :
    (activateBlocks bs vs).state.1.unfired = vs.unfired ∧
      (activateBlocks bs vs).state.2.map RuleBlock.deactivate = bs.map RuleBlock.deactivate := by
  induction bs generalizing vs with
  | nil => exact ⟨rfl, rfl⟩
  | cons b rest ih =>
    obtain ⟨hstore, hblock⟩ := Prod.mk.inj (b.frame_activate vs)
    cases h : (b.activate vs).error with
    | some e =>
      rw [activateBlocks_cons_of_error h]
      exact ⟨hstore, congrArg (· :: rest.map RuleBlock.deactivate) hblock⟩
    | none =>
      obtain ⟨hrest, hblocks⟩ := ih (b.activate vs).state.1
      rw [activateBlocks_cons_of_done h]
      refine ⟨hrest.trans hstore, ?_⟩
      rw [List.map_cons, List.map_cons, hblocks]
      exact congrArg (· :: rest.map RuleBlock.deactivate) hblock

end Engine

/-! ## §2 Forms -/

/-- The output without its values and without what a cycle puts into its fuzzy output. -/
def OutputVariable.form (v : OutputVariable α) : OutputVariable α :=
  { v with
    value := nan
    previousValue := nan
    fuzzyOutput := { v.fuzzyOutput with minimum := nan, maximum := nan, terms := [] } }

/-- The inputs, and the forms of the outputs. Variables that were removed are left out. -/
def Variables.form (vs : Variables α) : Variables α :=
  ⟨vs.inputs, vs.outputs.map OutputVariable.form, [], [], 0⟩

theorem Variables.form_unfired (vs : Variables α) : vs.unfired.form = vs.form := by
  simp only [form, unfired, List.map_map]
  rfl

theorem Variables.form_clearOutputs (vs : Variables α) : (Engine.clearOutputs vs).form = vs.form := by
  simp only [form, Engine.clearOutputs, List.map_map]
  rfl

namespace Engine

/-- The engine without anything that a cycle computes: the structure, the configuration and the values of
the inputs. -/
def form (e : Engine α) : Engine α :=
  { e with store := e.store.form, blocks := e.blocks.map RuleBlock.deactivate, state := .idle }

theorem form_infer (e : Engine α) : e.infer.state.form = e.form := by
  obtain ⟨hstore, hblocks⟩ := frame_activateBlocks e.blocks (clearOutputs e.store)
  have hform : (activateBlocks e.blocks (clearOutputs e.store)).state.1.form = e.store.form := by
    rw [← Variables.form_unfired, hstore, Variables.form_unfired, Variables.form_clearOutputs]
  rw [form, infer, Outcome.state_map, hform, hblocks]
  rfl

theorem form_defuzzifyOutputs (vs : Variables α) : (defuzzifyOutputs vs).state.form = vs.form := by
  have houtputs := map_outputs_defuzzifyFrom (f := OutputVariable.form)
    (fun around v => by
      obtain ⟨x, hx⟩ := v.defuzzify_fst around
      rw [hx]
      rfl)
    vs [] vs.outputs
  rw [defuzzifyOutputs, state_defuzzifyFrom, Variables.form, houtputs]
  rfl

/-- A cycle keeps the form of the engine, also when it is stopped. -/
theorem form_process (e : Engine α) : e.process.state.form = e.form := by
  cases h : e.infer.error with
  | some err =>
    rw [(process_of_infer_error h).2]
    exact e.form_infer
  | none =>
    obtain ⟨-, s, hs⟩ := conclude_eq e.infer.state
    rw [(process_of_infer_done h).2, hs, form, form_defuzzifyOutputs, ← e.form_infer]
    rfl

/-- A cycle changes nothing of the rules but their degrees and marks. -/
theorem deactivate_process (e : Engine α) :
    e.process.state.blocks.map RuleBlock.deactivate = e.blocks.map RuleBlock.deactivate :=
  congrArg Engine.blocks e.form_process

end Engine

end FuzzyInference
