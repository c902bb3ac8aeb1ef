import FuzzyInference.Controller
import FuzzyInference.Proofs.Faults.Cycle
import FuzzyInference.Proofs.References

/-!
# Faults and the log of a controller

A controller logs that a cycle failed when the error tells something about the model. No other stage reports
such a failure, so that the log shows the cycle exactly when the error does. A cycle that is stopped by a
fault escapes the log.

The plan of this module:

* the channels on which a cycle reports;
* the cycles of a controller.

## Main statements

* `Engine.reports_process`: a cycle reports nothing in the name of a controller
* `Controller.unlogged_iff`: which failures stay out of the log
* `Engine.escapes_process_iff`: which failures escape the engine and the log
-/

namespace FuzzyInference

open Scalar Checked

/-! ## §1 What a cycle reports -/

namespace Outcome

variable {ω σ τ ι : Type} {P : ω → Prop}

/-- Everything that was reported has a property. -/
def Reports (P : ω → Prop) (o : Outcome ω σ) : Prop := ∀ event ∈ o.events, P event

theorem reports_done (s : σ) : (done s).Reports P := fun _ h => nomatch h

theorem reports_stop (e : Error) (s : σ) : (stop e s).Reports P := fun _ h => nomatch h

theorem reports_report {e : ω} (h : P e) (s : σ) : (report e s).Reports P := by
  intro event hevent
  rwa [List.mem_singleton.1 hevent]

theorem Reports.map {o : Outcome ω σ} (h : o.Reports P) (f : σ → τ) : (o.map f).Reports P := h

theorem Reports.andThen {o : Outcome ω σ} {step : σ → Outcome ω σ} (h : o.Reports P)
    (hstep : ∀ s, (step s).Reports P) : (o.andThen step).Reports P := by
  cases herror : o.error with
  | some e => rwa [andThen_stopped o step herror]
  | none =>
    intro event hevent
    simp only [Outcome.andThen, herror] at hevent
    rcases List.mem_append.1 hevent with hevent | hevent
    · exact h event hevent
    · exact hstep o.state event hevent

theorem reports_each {step : ι → σ → Outcome ω σ} (h : ∀ i s, (step i s).Reports P) (is : List ι)
    (s : σ) : (each step is s).Reports P := by
  induction is generalizing s with
  | nil => exact reports_done s
  | cons i is ih => exact (h i s).andThen ih

end Outcome

open Outcome

variable {α : Type} [Scalar α]

/-- An event that an engine reports, as opposed to its controller. -/
def Event.IsInner (event : Event α) : Prop := event.channel ≠ .controller

theorem Rule.reports_trigger (implication : Option TNorm) (vs : Variables α) (r : Rule α) :
    (Rule.trigger implication vs r).Reports Event.IsInner := by
  -- conclusions report nothing at all
  have hconclude : (Rule.conclude implication r.degree r.conclusions vs).Reports
      (Event.IsInner (α := α)) := by
    refine reports_each (fun p ws => ?_) _ _
    cases ws.conclude implication r.degree p with
    | ok ws => exact reports_done ws
    | error e => exact reports_stop e ws
  unfold Rule.trigger
  split
  · exact reports_stop _ _
  · split
    · exact (hconclude.map _).andThen fun s => reports_done _
    · exact reports_done _

namespace RuleBlock

theorem reports_fire (p : α × Nat) (s : Variables α × RuleBlock α) :
    (fire p s).Reports Event.IsInner := by
  obtain ⟨vs, b⟩ := s
  unfold fire
  cases hr : b.rules[p.2]? with
  | none => simpa only [hr] using reports_done (vs, b)
  | some r => simpa only [hr] using (Rule.reports_trigger b.implication vs { r with degree := p.1 }).map _

theorem reports_run (vs : Variables α) (b : RuleBlock α) : (b.run vs).Reports Event.IsInner := by
  unfold run
  obtain ⟨evaluated, error⟩ := b.evaluateAll vs
  cases error with
  | some e => exact reports_stop _ _
  | none =>
    refine Reports.andThen ?_ fun s => reports_each reports_fire _ s
    split
    · exact reports_report (by simp [Event.IsInner, Event.channel]) _
    · exact reports_done _

theorem reports_activate (vs : Variables α) (b : RuleBlock α) :
    (b.activate vs).Reports Event.IsInner := by
  unfold activate
  split
  · exact (reports_report (by simp [Event.IsInner, Event.channel]) _).andThen fun s => s.2.reports_run s.1
  · exact reports_done _

end RuleBlock

namespace Engine

theorem reports_activateBlocks (bs : List (RuleBlock α)) (vs : Variables α) :
    (activateBlocks bs vs).Reports Event.IsInner := by
  induction bs generalizing vs with
  | nil => exact reports_done _
  | cons b bs ih => exact ((b.reports_activate vs).map _).andThen fun s => (ih s.1).map _

theorem reports_defuzzifyOutput (around : Option (Surroundings α)) (v : OutputVariable α) :
    (defuzzifyOutput around v).Reports Event.IsInner := by
  have hevents : ∀ event ∈ defuzzifyEvents around v, event.IsInner := by
    intro event hevent
    unfold defuzzifyEvents at hevent
    split at hevent
    · split at hevent
      · cases hevent
      · split at hevent
        · cases hevent
        · rw [List.mem_singleton.1 hevent]
          simp [Event.IsInner, Event.channel]
    · cases hevent
  unfold defuzzifyOutput
  rcases v.defuzzify around with ⟨w, e | u⟩
  · exact hevents
  · intro event hevent
    rcases List.mem_append.1 hevent with hevent | hevent
    · exact hevents event hevent
    · rw [List.mem_singleton.1 hevent]
      simp [Event.IsInner, Event.channel]

theorem reports_defuzzifyFrom (vs : Variables α) (before rest : List (OutputVariable α)) :
    (defuzzifyFrom vs before rest).Reports Event.IsInner := by
  induction rest generalizing before with
  | nil => exact reports_done _
  | cons v rest ih => exact ((reports_defuzzifyOutput _ v).map _).andThen fun _ => ih _

/-- A cycle reports nothing in the name of a controller. -/
theorem reports_process (e : Engine α) : e.process.Reports Event.IsInner := by
  refine Reports.andThen (Reports.andThen ?_ fun e => ?_) fun e => ?_
  · exact reports_report (by simp [Event.IsInner, Event.channel]) e
  · exact (reports_activateBlocks e.blocks (clearOutputs e.store)).map _
  · refine ((reports_defuzzifyFrom e.store [] e.store.outputs).map _).andThen fun e => ?_
    exact reports_report (by simp [Event.IsInner, Event.channel]) _

end Engine

/-! ## §2 Cycles of a controller -/

theorem Collection.isFuzzy_get {ι : Type} {c : Collection} {nameOf : ι → Name} {xs : List ι} {key : Key}
    {err : Error} (h : c.get nameOf xs key = .error err) : err.isFuzzy = true := by
  rcases bind_eq_error_iff.1 h with h | ⟨i, -, h⟩
  · cases key with
    | name n =>
      unfold Collection.find at h
      dsimp only at h
      split at h
      · cases h
      · cases h
        rfl
    | position i =>
      unfold Collection.find at h
      dsimp only at h
      split at h
      · cases h
      · cases h
        rfl
  · split at h
    · cases h
    · cases h
      rfl

namespace Controller

/-- Inputs that cannot be assigned are unknown to the model. -/
theorem isFuzzy_assignInputs {inputs : List (Name × α)} {e : Engine α} {err : Error}
    (h : (assignInputs inputs e).error = some err) : err.isFuzzy = true := by
  induction inputs generalizing e with
  | nil => cases h
  | cons p inputs ih =>
    unfold assignInputs each at h
    cases hp : e.setInputValue (.ofName p.1) p.2 with
    | ok e' =>
      rw [hp, done_andThen] at h
      exact ih h
    | error err' =>
      rw [hp, andThen_stopped _ _ rfl] at h
      cases h
      rcases bind_eq_error_iff.1 hp with h | ⟨v, -, h⟩
      · exact Collection.isFuzzy_get h
      · cases h

theorem reports_assignInputs (inputs : List (Name × α)) (e : Engine α) :
    (assignInputs inputs e).Reports Event.IsInner := by
  refine reports_each (fun p e => ?_) inputs e
  cases e.setInputValue (.ofName p.1) p.2 with
  | ok e => exact reports_done e
  | error err => exact reports_stop err e

/-- A cycle of the engine whose inputs are assigned. -/
def cycleOf (inputs : List (Name × α)) (e : Engine α) : Outcome (Event α) (Engine α) :=
  ((Outcome.report (.controllerCycleStarted (Engine.shownValues (lastValues inputs))) e).andThen
    (assignInputs (lastValues inputs))).andThen Engine.process

theorem error_cycleOf (inputs : List (Name × α)) (e : Engine α) :
    (cycleOf inputs e).error =
      match (assignInputs (lastValues inputs) e).error with
      | some err => some err
      | none => (assignInputs (lastValues inputs) e).state.process.error := by
  have herror : ((Outcome.report (.controllerCycleStarted (Engine.shownValues (lastValues inputs)))
      e).andThen (assignInputs (lastValues inputs))).error = (assignInputs (lastValues inputs) e).error :=
    Outcome.error_andThen_of_done rfl _
  have hstate : ((Outcome.report (.controllerCycleStarted (Engine.shownValues (lastValues inputs)))
      e).andThen (assignInputs (lastValues inputs))).state = (assignInputs (lastValues inputs) e).state :=
    Outcome.state_andThen_of_done rfl _
  unfold cycleOf
  -- the engine starts only when all inputs are assigned
  cases h : (assignInputs (lastValues inputs) e).error with
  | some err => rw [andThen_stopped _ _ (herror.trans h), herror, h]
  | none => rw [Outcome.error_andThen_of_done (herror.trans h), hstate]

/-- The engine reports no failure of a cycle; that is left to the controller. -/
theorem reports_cycleOf (inputs : List (Name × α)) (e : Engine α) :
    (cycleOf inputs e).Reports fun event => ∀ n, event ≠ .cycleFailed n := by
  have hinner : ∀ event : Event α, event.IsInner → ∀ n, event ≠ .cycleFailed n := by
    rintro event hinner n rfl
    exact hinner rfl
  refine Reports.andThen (Reports.andThen (reports_report (fun n => by simp) e) fun e => ?_) fun e => ?_
  · exact fun event h => hinner event (reports_assignInputs (lastValues inputs) e event h)
  · exact fun event h => hinner event (e.reports_process event h)

/-- A cycle that is stopped reports what the engine did, and the failure if that is one of the model. -/
theorem process_of_error {c : Controller α} {inputs : List (Name × α)} {err : Error}
    (h : (cycleOf inputs c.engine).error = some err) :
    (c.process inputs).error = some err ∧
      (c.process inputs).events.map Record.event =
        (cycleOf inputs c.engine).events ++ failureEvents c.cycle err := by
  unfold process
  dsimp only
  split
  next err' herr =>
    cases h.symm.trans herr
    refine ⟨rfl, ?_⟩
    simp only [record, List.map_map]
    exact List.map_id _
  next hnone => cases h.symm.trans hnone

theorem process_of_done {c : Controller α} {inputs : List (Name × α)}
    (h : (cycleOf inputs c.engine).error = none) : (c.process inputs).error = none := by
  unfold process
  dsimp only
  split
  next err herr => cases h.symm.trans herr
  next => rfl

/-- A cycle is stopped without a record of the failure when its error tells nothing about the model. -/
theorem unlogged_iff (c : Controller α) (inputs : List (Name × α)) :
    ((c.process inputs).error.isSome = true ∧
        ∀ r ∈ (c.process inputs).events, ∀ n, r.event ≠ .cycleFailed n) ↔
      ∃ err, (cycleOf inputs c.engine).error = some err ∧ err.isFuzzy = false := by
  cases h : (cycleOf inputs c.engine).error with
  | none => simp [process_of_done h]
  | some err =>
    obtain ⟨herror, hevents⟩ := process_of_error h
    have hrecords : (∀ r ∈ (c.process inputs).events, ∀ n, r.event ≠ .cycleFailed n) ↔
        ∀ event ∈ (c.process inputs).events.map Record.event, ∀ n, event ≠ .cycleFailed n := by
      simp
    rw [hrecords, hevents, herror]
    -- the record of the failure is the only one of its kind, and is written for errors of the model
    cases hfuzzy : err.isFuzzy with
    | true => simp [failureEvents, hfuzzy]
    | false => simpa [failureEvents, hfuzzy, Reports] using reports_cycleOf inputs c.engine

end Controller

/-- A cycle lets an error escape that tells nothing about the model exactly when one of its steps faults. A
controller of the engine is stopped without a record of the failure exactly when it could assign the inputs
and the engine with these inputs faults. -/
theorem Engine.escapes_process_iff (e : Engine α) :
    (∀ err, (e.process.error = some err ∧ err.isFuzzy = false) ↔ ∃ f, err = .fault f ∧ e.Faults f) ∧
    ∀ (cycle : Nat) (stamp : Int) (inputs : List (Name × α)),
      ((Controller.process ⟨e, cycle, stamp⟩ inputs).error.isSome = true ∧
          ∀ r ∈ (Controller.process ⟨e, cycle, stamp⟩ inputs).events, ∀ n, r.event ≠ .cycleFailed n) ↔
        (Controller.assignInputs (lastValues inputs) e).error = none ∧
          ∃ f, (Controller.assignInputs (lastValues inputs) e).state.Faults f := by
  have hengine : ∀ (e : Engine α) (err : Error),
      (e.process.error = some err ∧ err.isFuzzy = false) ↔ ∃ f, err = .fault f ∧ e.Faults f := by
    intro e err
    rw [Outcome.error_eq_some_iff]
    exact e.escapesWhen_process err
  refine ⟨hengine e, fun cycle stamp inputs => ?_⟩
  rw [Controller.unlogged_iff, Controller.error_cycleOf]
  cases h : (Controller.assignInputs (lastValues inputs) e).error with
  | some err =>
    -- an unknown input is a failure of the model, and the engine does not even start
    have hfuzzy := Controller.isFuzzy_assignInputs h
    simp [hfuzzy]
  | none =>
    simp only [hengine, true_and]
    constructor
    · rintro ⟨err, f, -, hf⟩
      exact ⟨f, hf⟩
    · rintro ⟨f, hf⟩
      exact ⟨.fault f, f, rfl, hf⟩

/-- The relay with a term for its input and one rule of weight two, `if x is HALF then y is seldom LOW`. -/
def Engine.overweightRelay : Engine Float :=
  { relay with
    store := { relay.store with
      inputs := [{ Variable.empty "x" 0.0 1.0 with value := 0.5, terms := [⟨0, "HALF", .constant 1.0⟩] }] }
    blocks := [{ relayBlock "first" ⟨⟨0, "x", false⟩, [], some ⟨0, "HALF"⟩⟩ (relayProposition [] 0 "LOW") with
      rules := [⟨"", 2.0, true, "", some (.proposition ⟨⟨0, "x", false⟩, [], some ⟨0, "HALF"⟩⟩), "",
        [relayProposition [.seldom] 0 "LOW"], 0.0, false⟩] }] }

/-- The engine is ready, and its cycle takes the root of a negative number. -/
theorem Engine.error_process_overweightRelay :
    overweightRelay.isReady = true ∧ overweightRelay.process.error = some (.fault .domain) := by
  decide +kernel

end FuzzyInference
