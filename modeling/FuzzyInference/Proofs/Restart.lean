import FuzzyInference.Proofs.Assembly
import FuzzyInference.Proofs.Frame

/-!
# Restarting an engine

A client of an engine whose configuration is fixed sets inputs, runs cycles and restarts the engine. A
restart forgets whatever was done before: the engine is then the one that a restart at the very beginning
would have left, also after cycles that were stopped halfway, and also in its rules and blocks that no cycle
comes to.

A restart does not touch everything that a cycle writes. Before an output is defuzzified, its fuzzy output
takes the range of the output over, and keeps it. That leaves no trace where the fuzzy output has this range
from the beginning, which is so in every engine that a document describes.

The plan of this module:

* sessions;
* stores whose fuzzy outputs have the ranges of their outputs;
* a restart after one use, and after a session;
* outputs that have computed nothing, and engines of documents.

## Main statements

* `Engine.restart_use`: a restart after one use
* `Engine.isNew_ofDocument`: the engine of a document has computed nothing
* `Engine.restart_session`: a restart after a session with an engine that was made from a document and then
  operated
-/

namespace FuzzyInference

open Scalar Checked

/-! ## §1 Sessions -/

/-- What may be done with an engine whose configuration is fixed. -/
inductive Use
  | set (key : Key) (x : Float)
  | cycle
  | restart
deriving Repr

namespace Engine

/-- The engine after one use. A key that names no input changes nothing, and a cycle that is stopped leaves
what it reached. -/
def use (e : Engine Float) : Use → Engine Float
  | .set key x => e.perform (.setInput key x)
  | .cycle => e.process.state
  | .restart => e.restart

/-- The engine after uses, one after the other. -/
def session (e : Engine Float) (us : List Use) : Engine Float := us.foldl use e

@[simp] theorem session_nil (e : Engine Float) : e.session [] = e := rfl

@[simp] theorem session_cons (e : Engine Float) (u : Use) (us : List Use) :
    e.session (u :: us) = (e.use u).session us := rfl

/-- Setting an input assigns at most the values of inputs. -/
theorem use_set (e : Engine Float) (key : Key) (x : Float) :
    e.use (.set key x) = e ∨
      ∃ id, e.use (.set key x) = { e with store := e.store.modifyInput id fun v => v.assign x } := by
  cases h : e.setInputValue key x with
  | error err => exact .inl (by simp only [use, perform, h])
  | ok e' =>
    obtain ⟨v, -, he'⟩ := bind_eq_ok_iff.1 h
    refine .inr ⟨v.id, ?_⟩
    simp only [use, perform, h]
    exact (Except.ok.inj he').symm

end Engine

/-! ## §2 Ranges of fuzzy outputs -/

namespace OutputVariable

/-- The fuzzy output has the range of the output. -/
structure IsFramed (v : OutputVariable Float) : Prop where
  minimum : v.fuzzyOutput.minimum = v.minimum
  maximum : v.fuzzyOutput.maximum = v.maximum

theorem isFramed_defuzzify (v : OutputVariable Float) (around : Option (Surroundings Float)) :
    (v.defuzzify around).1.IsFramed := by
  obtain ⟨x, hx⟩ := v.defuzzify_fst around
  rw [hx]
  exact ⟨rfl, rfl⟩

/-- The output whose fuzzy output takes the range over. -/
def framed (v : OutputVariable Float) : OutputVariable Float :=
  { v with fuzzyOutput := { v.fuzzyOutput with minimum := v.minimum, maximum := v.maximum } }

/-- What is left of an output without its values is determined by its form. -/
theorem IsFramed.clear_eq {v : OutputVariable Float} (h : v.IsFramed) : v.clear = v.form.framed := by
  simp only [clear, framed, form, Aggregated.clear, ← h.minimum, ← h.maximum]

end OutputVariable

namespace Variables

/-- All fuzzy outputs have the ranges of their outputs, and no output was removed. -/
structure IsFramed (vs : Variables Float) : Prop where
  outputs : ∀ v ∈ vs.outputs, v.IsFramed
  removed : vs.removedOutputs = []

variable {vs ws : Variables Float}

/-- Without its values, a store is determined by its form and by what a form leaves out. -/
theorem map_clear_eq (hvs : vs.IsFramed) (hws : ws.IsFramed) (h : vs.form = ws.form) :
    vs.outputs.map OutputVariable.clear = ws.outputs.map OutputVariable.clear := by
  have hclear : ∀ us : Variables Float, us.IsFramed →
      us.outputs.map OutputVariable.clear = us.form.outputs.map OutputVariable.framed := by
    intro us hus
    rw [form, List.map_map]
    exact List.map_congr_left fun v hv => (hus.outputs v hv).clear_eq
  rw [hclear vs hvs, hclear ws hws, h]

theorem IsFramed.clearOutputs (h : vs.IsFramed) : (Engine.clearOutputs vs).IsFramed := by
  refine ⟨fun v hv => ?_, h.removed⟩
  obtain ⟨w, hw, rfl⟩ := List.mem_map.1 hv
  exact ⟨(h.outputs w hw).minimum, (h.outputs w hw).maximum⟩

/-- Stores that differ in what was added to fuzzy outputs differ in nothing else, and keep the ranges. -/
theorem eq_of_unfired_eq (h : vs.unfired = ws.unfired) (framed : ws.IsFramed) :
    vs = { ws with outputs := vs.outputs } ∧ vs.IsFramed := by
  obtain ⟨inputs, outputs, removedInputs, removedOutputs, nextId⟩ := vs
  obtain ⟨hinputs, houtputs, hremovedInputs, hremoved, hnextId⟩ := Variables.mk.inj h
  rw [framed.removed, List.map_nil] at hremoved
  obtain rfl : removedOutputs = [] := List.map_eq_nil_iff.1 hremoved
  refine ⟨?_, fun v hv => ?_, rfl⟩
  · cases hinputs
    cases hremovedInputs
    cases hnextId
    rw [← framed.removed]
  · -- an output without its activated terms is one of the other store
    have hmem := List.mem_map_of_mem
      (f := fun v : OutputVariable Float => { v with fuzzyOutput := { v.fuzzyOutput with terms := [] } }) hv
    rw [houtputs] at hmem
    obtain ⟨w, hw, hwv⟩ := List.mem_map.1 hmem
    have hfields := congrArg (fun u : OutputVariable Float =>
      (u.fuzzyOutput.minimum, u.fuzzyOutput.maximum, u.minimum, u.maximum)) hwv
    obtain ⟨hmin, hmax, hlow, hhigh⟩ : w.fuzzyOutput.minimum = v.fuzzyOutput.minimum ∧
        w.fuzzyOutput.maximum = v.fuzzyOutput.maximum ∧ w.minimum = v.minimum ∧ w.maximum = v.maximum := by
      simpa using hfields
    obtain ⟨hminimum, hmaximum⟩ := framed.outputs w hw
    exact ⟨by rw [← hmin, hminimum, hlow], by rw [← hmax, hmaximum, hhigh]⟩

end Variables

/-! ## §3 A restart after a session -/

namespace Engine

/-- The blocks change no variables but the fuzzy outputs. -/
theorem store_infer {e : Engine Float} (h : e.store.IsFramed) :
    e.infer.state.store = { e.store with outputs := e.infer.state.outputs } ∧
      e.infer.state.store.IsFramed := by
  obtain ⟨hstore, -⟩ := frame_activateBlocks e.blocks (clearOutputs e.store)
  have hframed := Variables.eq_of_unfired_eq hstore h.clearOutputs
  exact hframed

/-- A cycle changes no variables but the outputs. -/
theorem store_process {e : Engine Float} (h : e.store.IsFramed) :
    e.process.state.store = { e.store with outputs := e.process.state.outputs } ∧
      e.process.state.store.IsFramed := by
  obtain ⟨hinfer, hframed⟩ := store_infer h
  cases herror : e.infer.error with
  | some err =>
    rw [(process_of_infer_error herror).2]
    exact ⟨hinfer, hframed⟩
  | none =>
    obtain ⟨-, s, hs⟩ := conclude_eq e.infer.state
    obtain ⟨ws, hws, hall, -⟩ := exists_outputs_defuzzifyFrom e.infer.state.store []
      e.infer.state.store.outputs
    have hstore := state_defuzzifyFrom e.infer.state.store [] e.infer.state.store.outputs
    rw [hws, List.nil_append] at hstore
    have hprocess : e.process.state.store = { e.infer.state.store with outputs := ws } := by
      rw [(process_of_infer_done herror).2, hs]
      exact hstore
    rw [outputs, hprocess]
    refine ⟨by rw [hinfer], fun w hw => ?_, hframed.removed⟩
    -- an output is framed before it is defuzzified, and afterwards anyway
    obtain ⟨v, hv, hvw⟩ := exists_mem_left_of_forall₂ hall hw
    rcases hvw with rfl | ⟨around, rfl⟩
    · exact hframed.outputs _ hv
    · exact v.isFramed_defuzzify around

/-- What was done last is forgotten by a restart. -/
theorem restart_use {e : Engine Float} (h : e.store.IsFramed) (u : Use) :
    (e.use u).restart = e.restart ∧ (e.use u).store.IsFramed := by
  cases u with
  | set key x =>
    rcases use_set e key x with huse | ⟨id, huse⟩
    · rw [huse]
      exact ⟨rfl, h⟩
    · rw [huse]
      refine ⟨?_, h.outputs, h.removed⟩
      -- whatever value an input has, the restart assigns another one
      simp only [restart, Variables.modifyInput, List.map_map]
      congr 2
      refine List.map_congr_left fun v _ => ?_
      simp only [Function.comp_apply]
      split
      · rfl
      · rfl
  | cycle =>
    obtain ⟨hstore, hframed⟩ := store_process h
    refine ⟨?_, hframed⟩
    have hform := e.form_process
    have hname : e.process.state.name = e.name := (congrArg Engine.name hform :)
    have hclear := Variables.map_clear_eq hframed h (congrArg (fun f : Engine Float => f.store) hform)
    have hrules := e.deactivate_process
    rw [hstore] at hclear
    simp only [use, restart, hname, hstore]
    exact congrArg₂ (fun outputs blocks => Engine.mk e.name
      { e.store with inputs := e.store.inputs.map fun v => v.assign nan, outputs } blocks .idle) hclear hrules
  | restart =>
    refine ⟨?_, fun v hv => ?_, h.removed⟩
    · simp only [use, restart, List.map_map, Function.comp_def]
      rfl
    · obtain ⟨w, hw, rfl⟩ := List.mem_map.1 hv
      exact ⟨(h.outputs w hw).minimum, (h.outputs w hw).maximum⟩

/-- What a session did is forgotten by a restart. -/
theorem restart_session_of_isFramed {e : Engine Float} (h : e.store.IsFramed) (us : List Use) :
    (e.session us).restart = e.restart := by
  -- by induction on the uses: the fuzzy outputs keep their ranges while the engine is used
  induction us generalizing e with
  | nil => rfl
  | cons u us ih =>
    obtain ⟨hrestart, hframed⟩ := restart_use h u
    rw [session_cons, ih hframed, hrestart]

end Engine

/-! ## §4 Engines that have computed nothing -/

/-- An output that has computed nothing. -/
structure OutputVariable.IsUnvalued (v : OutputVariable Float) : Prop where
  value : v.value = nan
  previousValue : v.previousValue = nan

/-- An output that has computed nothing, and whose fuzzy output has its range. -/
structure OutputVariable.IsNew (v : OutputVariable Float) : Prop extends v.IsFramed, v.IsUnvalued

/-- The outputs have computed nothing, and none was removed. -/
structure Variables.IsNew (vs : Variables Float) : Prop where
  outputs : ∀ v ∈ vs.outputs, v.IsNew
  removed : vs.removedOutputs = []

theorem Variables.IsNew.isFramed {vs : Variables Float} (h : vs.IsNew) : vs.IsFramed :=
  ⟨fun v hv => (h.outputs v hv).toIsFramed, h.removed⟩

namespace Variable

/-- What terms leave alone. -/
def measure (v : Variable Float) : Float × Float × Float := (v.minimum, v.maximum, v.value)

theorem measure_addTables {r : TermRegistry} {v w : Variable Float} {ts : List Value}
    (h : v.addTables r ts = .ok w) : w.measure = v.measure := by
  induction ts generalizing v with
  | nil =>
    cases h
    rfl
  | cons t ts ih =>
    obtain ⟨term, -, h⟩ := bind_eq_ok_iff.1 h
    obtain ⟨u, hu, h⟩ := bind_eq_ok_iff.1 h
    rw [ih h, placeTerm_eq_ok hu]
    rfl

theorem measure_fill {r : TermRegistry} {v w : Variable Float} {t : Value} (h : v.fill r t = .ok w) :
    w.measure = v.measure := by
  unfold fill at h
  exact (measure_addTables h :)

end Variable

namespace OutputVariable

theorem isNew_ofTable {r : TermRegistry} {t : Value} {v : OutputVariable Float} (h : ofTable r t = .ok v) :
    v.IsNew := by
  simp only [ofTable, bind_eq_ok_iff] at h
  obtain ⟨name, -, ⟨minimum, maximum⟩, -, base, hbase, _, -, _, -, _, -, _, -, _, -, h⟩ := h
  cases h
  have hmeasure := Variable.measure_fill hbase
  obtain ⟨hminimum, hrest⟩ := Prod.mk.inj hmeasure
  obtain ⟨hmaximum, hvalue⟩ := Prod.mk.inj hrest
  exact ⟨⟨hminimum.symm, hmaximum.symm⟩, hvalue, rfl⟩

/-- Equipping a list of outputs equips them one by one. -/
theorem value_equipAll (ops : Operators) (defuzzifier : String) (resolution : Value)
    (vs : List (OutputVariable Float)) :
    (equipAll ops defuzzifier resolution vs).value =
      vs.mapM fun v => (v.equip ops defuzzifier resolution).value := by
  induction vs with
  | nil => rfl
  | cons v vs ih =>
    rw [equipAll, Outcome.value_andThen, Outcome.value_map, List.mapM_cons]
    simp only [Outcome.value_map, ih]
    cases herror : (v.equip ops defuzzifier resolution).value with
    | error e => rfl
    | ok w =>
      rw [(Outcome.value_eq_ok_iff.1 herror).2]
      rfl

theorem IsNew.equip {ops : Operators} {defuzzifier : String} {resolution : Value}
    {v w : OutputVariable Float} (hv : v.IsNew)
    (h : (v.equip ops defuzzifier resolution).value = .ok w) : w.IsNew := by
  have hequipped : (v.equipAggregation ops).IsNew := ⟨⟨hv.minimum, hv.maximum⟩, hv.value, hv.previousValue⟩
  unfold OutputVariable.equip at h
  dsimp only at h
  split at h
  · cases h
    exact hequipped
  · split at h
    · cases h
      exact ⟨⟨hequipped.minimum, hequipped.maximum⟩, hequipped.value, hequipped.previousValue⟩
    · cases h

end OutputVariable

namespace Engine

/-- What is left of an engine by a restart has computed nothing. -/
theorem isNew_restart {e : Engine Float} (h : e.store.IsFramed) : e.restart.store.IsNew := by
  refine ⟨fun v hv => ?_, h.removed⟩
  obtain ⟨w, hw, rfl⟩ := List.mem_map.1 hv
  exact ⟨⟨(h.outputs w hw).minimum, (h.outputs w hw).maximum⟩, rfl, rfl⟩

theorem isNew_assemble {r : TermRegistry} {doc : Value} {e : Engine Float} (h : assemble r doc = .ok e) :
    e.store.IsNew := by
  obtain ⟨e₁, hinputs, h⟩ := bind_eq_ok_iff.1 h
  obtain ⟨e₂, houtputs, hblocks⟩ := bind_eq_ok_iff.1 h
  have hempty : (Engine.empty (settings doc).label : Engine Float).store.IsNew :=
    ⟨fun _ hv => absurd hv List.not_mem_nil, rfl⟩
  -- inputs, outputs and blocks are added in turn, and only outputs matter here
  have h₁ : e₁.store.IsNew := by
    refine invariant_of_foldlM (P := fun e => e.store.IsNew) (fun e t e' he hstep => ?_) hempty hinputs
    obtain ⟨v, -, rfl⟩ := map_eq_ok_iff.1 hstep
    exact ⟨he.outputs, he.removed⟩
  have h₂ : e₂.store.IsNew := by
    refine invariant_of_foldlM (P := fun e => e.store.IsNew) (fun e t e' he hstep => ?_) h₁ houtputs
    obtain ⟨v, hv, rfl⟩ := map_eq_ok_iff.1 hstep
    have hnew := OutputVariable.isNew_ofTable hv
    refine ⟨fun w hw => ?_, he.removed⟩
    rcases List.mem_append.1 hw with hw | hw
    · exact he.outputs w hw
    · obtain rfl := List.mem_singleton.1 hw
      exact ⟨⟨hnew.minimum, hnew.maximum⟩, hnew.value, hnew.previousValue⟩
  refine invariant_of_foldlM (P := fun e => e.store.IsNew) (fun e t e' he hstep => ?_) h₂ hblocks
  obtain ⟨b, -, rfl⟩ := map_eq_ok_iff.1 hstep
  exact he

theorem isNew_configureBy {e e' : Engine Float} {settings : Value} (he : e.store.IsNew)
    (h : (e.configureBy settings).value = .ok e') : e'.store.IsNew := by
  unfold configureBy configure at h
  split at h
  · cases h
  · split at h
    · cases h
    · rw [Outcome.value_andThen, Outcome.value_map, OutputVariable.value_equipAll] at h
      obtain ⟨e₁, hequipped, h⟩ := bind_eq_ok_iff.1 h
      obtain ⟨ws, hws, rfl⟩ := map_eq_ok_iff.1 hequipped
      cases h
      refine ⟨fun w hw => ?_, he.removed⟩
      obtain ⟨v, hv, hequip⟩ := exists_of_mem_mapM hws hw
      exact (he.outputs v hv).equip hequip

theorem isNew_settleTypes {e e' : Engine Float} {name : Value} (he : e.store.IsNew)
    (h : (settleTypes name e).value = .ok e') : e'.store.IsNew := by
  unfold settleTypes at h
  split at h
  · cases h
    exact he
  · split at h
    · cases h
    · cases h
      refine ⟨fun w hw => ?_, he.removed⟩
      obtain ⟨v, hv, rfl⟩ := List.mem_map.1 hw
      have hnew := he.outputs v hv
      unfold settleType
      split
      · exact ⟨⟨hnew.minimum, hnew.maximum⟩, hnew.value, hnew.previousValue⟩
      · exact hnew

/-- Loading changes the blocks only, whether a rule failed or not. -/
theorem store_loadChecked (strict : Bool) (e : Engine Float) :
    (loadChecked strict e).state.store = e.store := by
  unfold loadChecked
  dsimp only
  split
  · rfl
  · rfl

/-- An engine that a document describes has computed nothing. -/
theorem isNew_ofDocument {r : TermRegistry} {strict : Bool} {doc : Value} {e : Engine Float}
    (h : (ofDocument r strict doc).value = .ok e) : e.store.IsNew := by
  unfold ofDocument at h
  split at h
  · cases h
  next e₀ hassemble =>
    rw [Outcome.value_andThen, Outcome.value_andThen, Outcome.value_andThen] at h
    obtain ⟨e₃, h, hbuilt⟩ := bind_eq_ok_iff.1 h
    obtain ⟨e₂, h, hloaded⟩ := bind_eq_ok_iff.1 h
    obtain ⟨e₁, hconfigured, hsettled⟩ := bind_eq_ok_iff.1 h
    obtain rfl : e₃ = e := Except.ok.inj hbuilt
    obtain ⟨-, rfl⟩ := Outcome.value_eq_ok_iff.1 hloaded
    rw [store_loadChecked]
    exact isNew_settleTypes (isNew_configureBy (isNew_assemble hassemble) hconfigured) hsettled

/-- Operations keep the ranges of the fuzzy outputs. -/
theorem isFramed_perform {e : Engine Float} (h : e.store.IsFramed) (op : Operation) :
    (e.perform op).store.IsFramed := by
  cases op with
  | setInput key x => exact (restart_use h (.set key x)).2
  | process => exact (restart_use h .cycle).2
  | enableInput key on =>
    simp only [perform]
    split
    · exact ⟨h.outputs, h.removed⟩
    · exact h
  | enableOutput key on =>
    simp only [perform]
    split
    · refine ⟨fun w hw => ?_, List.map_eq_nil_iff.2 h.removed⟩
      obtain ⟨v, hv, rfl⟩ := List.mem_map.1 hw
      have hframed := h.outputs v hv
      split
      · exact ⟨hframed.minimum, hframed.maximum⟩
      · exact hframed
    · exact h
  | enableBlock i on => exact h
  | enableRule i j on => exact h
  | load rs =>
    rw [store_load]
    exact h
  | unload rs =>
    rw [store_unload]
    exact h

theorem isFramed_run {e : Engine Float} (h : e.store.IsFramed) (ops : List Operation) :
    (e.run ops).store.IsFramed := by
  induction ops using List.reverseRecOn with
  | nil => exact h
  | append_singleton ops op ih =>
    rw [run_concat]
    exact isFramed_perform ih op

/-- What a session did is forgotten by a restart: the engine is the one that a restart before the session would
have left. The engine may be operated before, so that some of its blocks and rules are disabled or not
loaded. -/
theorem restart_session {r : TermRegistry} {strict : Bool} {doc : Value} {e : Engine Float}
    (h : (ofDocument r strict doc).value = .ok e) (ops : List Operation) (us : List Use) :
    ((e.run ops).session us).restart = (e.run ops).restart :=
  restart_session_of_isFramed (isFramed_run (isNew_ofDocument h).isFramed ops) us

/-- A document of one rule. -/
def relayDocument : Value :=
  .table
    [("engine", .table
        [("activation", .text "General"), ("defuzzifier", .text "WeightedAverage"),
          ("aggregation", .text "Maximum")]),
      ("input", .list [.table
        [("name", .text "Ambient"), ("terms", .list [.table
          [("type", .text "Rectangle"), ("name", .text "DARK"),
            ("parameters", .list [.float 0.0, .float 0.5])]])]]),
      ("output", .list [.table
        [("name", .text "Power"), ("terms", .list [.table
          [("type", .text "Constant"), ("name", .text "HIGH"), ("parameters", .list [.float 1.5])]])]]),
      ("rule_block", .list [.table
        [("rules", .list [.text "if Ambient is DARK then Power is HIGH"])]])]

/-- The engine of the document after a cycle in which its rule fired, with the rule disabled since. -/
def pausedRelay : Engine Float :=
  (ofDocument .standard true relayDocument).state.run
    [.setInput (.name (.text "Ambient")) 0.25, .process, .enableRule 0 0 false]

/-- No cycle takes the mark off the rule, but the restart does. -/
theorem restart_session_pausedRelay :
    (ofDocument .standard true relayDocument).error = none ∧
    (((pausedRelay.session [.cycle]).ruleAt? 0 0).map fun r => r.triggered) = some true ∧
    (pausedRelay.session [.cycle]).restart = pausedRelay.restart := by
  have hdone : (ofDocument .standard true relayDocument).error = none := by decide +kernel
  exact ⟨hdone, by decide +kernel, restart_session (Outcome.value_of_error_eq_none hdone) _ _⟩

end Engine

end FuzzyInference
