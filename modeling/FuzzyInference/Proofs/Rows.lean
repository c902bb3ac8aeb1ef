import FuzzyInference.Proofs.Assigning
import FuzzyInference.Proofs.Dangling
import FuzzyInference.Proofs.Loading

/-!
# Rows of values

A controller can be called with a row of values, one for each input in the order of declaration, and answers with a
row of the outputs. On the way in and on the way out the values are carried by name, and nothing keeps two
variables of an engine from having one name, or an input from having a name that means another place. Then rows
lose their positions: values for inputs of one name are merged and all but one of these inputs keep what they had,
and the answer is shorter than the list of outputs.

A row goes to the inputs in their places exactly when all their names differ and each of them means its own input,
as different texts do. The answer has a value for every output exactly when the names of the outputs differ.

The plan of this module:

* controllers in use, and what they keep;
* rows on the way in;
* rows on the way out;
* controllers of documents.

## Main statements

* `Engine.writes_row_iff`: when a row goes to the inputs in their places
* `Engine.write_row`: the inputs that a row gives their values
* `Controller.row_eq_iff`: when the answer has a value for every output
* `Controller.processRow_spec`: calling a controller with a row
-/

namespace FuzzyInference

open Scalar Checked

/-! ## §1 Rows on the way in -/

namespace Engine

variable {α : Type}

/-- No two inputs have names that count as one, and the name of every input means this input. -/
structure InputsApart (e : Engine α) : Prop where
  differ : KeysDiffer e.inputNames
  own : ∀ i n, e.inputNames[i]? = some n → e.placeOf n = .ok i

/-- The writes of a row whose values go to the inputs in their places. -/
def rowWrites (values : List α) : List (Nat × α) := (List.range values.length).zip values

theorem length_rowWrites (values : List α) : (rowWrites values).length = values.length := by
  rw [rowWrites, List.length_zip, List.length_range, Nat.min_self]

theorem getElem?_rowWrites (values : List α) (i : Nat) : (rowWrites values)[i]? = values[i]?.map fun x => (i, x) := by
  rw [rowWrites, List.zip, List.getElem?_zipWith]
  by_cases hi : i < values.length
  · rw [List.getElem?_range hi, List.getElem?_eq_getElem hi]
    rfl
  · rw [List.getElem?_eq_none (by simpa using hi), List.getElem?_eq_none (Nat.not_lt.1 hi)]
    rfl

/-- Inputs whose names are texts are apart when these texts are different. -/
theorem inputsApart_iff_of_texts {e : Engine α} {names : List String} (h : e.inputNames = names.map .text) :
    e.InputsApart ↔ names.Nodup := by
  refine ⟨fun hapart => ?_, fun hnodup => ⟨?_, fun i n hn => ?_⟩⟩
  · have hdiffer := hapart.differ
    rwa [h, keysDiffer_texts] at hdiffer
  · rwa [h, keysDiffer_texts]
  · -- the first input of a name is found, and it is the only one
    rw [h, List.getElem?_map] at hn
    obtain ⟨s, hs, rfl⟩ := Option.map_eq_some_iff.1 hn
    have hindex : (e.inputs.findIdx? fun v => v.name == Name.text s) = some i := by
      have hnames : (e.inputs.findIdx? fun v => v.name == Name.text s) = names.findIdx? (· == s) := by
        have hmap := congrArg (List.findIdx? (· == Name.text s)) h
        rw [inputNames, List.findIdx?_map, List.findIdx?_map] at hmap
        exact hmap
      obtain ⟨hlt, hget⟩ := List.getElem?_eq_some_iff.1 hs
      rw [hnames, List.findIdx?_eq_some_iff_getElem]
      refine ⟨hlt, by simp [hget], fun j hj hsame => ?_⟩
      have hjs : names[j] = s := by simpa using hsame
      exact absurd ((List.Nodup.getElem_inj_iff hnodup).1 (hjs.trans hget.symm)) (Nat.ne_of_lt hj)
    show Collection.inputVariables.find (fun v => v.name) e.inputs (.name (Name.text s)) = .ok i
    simp only [Collection.find, hindex]

/-- A row goes to the inputs in their places exactly when these are apart. -/
theorem writes_row_iff {e : Engine α} {values : List α} (hlength : values.length = e.inputNames.length) :
    e.writes (lastValues (e.inputNames.zip values)) = .ok (rowWrites values) ↔ e.InputsApart := by
  have hkeys : (e.inputNames.zip values).map Prod.fst = e.inputNames := List.map_fst_zip (Nat.le_of_eq hlength.symm)
  have hzip : (e.inputNames.zip values).length = values.length := by
    rw [List.length_zip, hlength, Nat.min_self]
  constructor
  · intro h
    have hall := (mapM_eq_ok_iff _ _ _).1 h
    -- as many writes as values leave no pair to be merged
    have hdiffer : KeysDiffer ((e.inputNames.zip values).map Prod.fst) := by
      rw [← length_lastValues_eq_iff, hall.length_eq, length_rowWrites, hzip]
    rw [lastValues_eq_self hdiffer] at hall
    refine ⟨hkeys ▸ hdiffer, fun i n hn => ?_⟩
    have hi : i < values.length := by
      rw [hlength]
      exact (List.getElem?_eq_some_iff.1 hn).1
    have hpair : (e.inputNames.zip values)[i]? = some (n, values[i]) := by
      rw [List.zip, List.getElem?_zipWith, hn, List.getElem?_eq_getElem hi]
    obtain ⟨w, hw, hplace⟩ := exists_getElem?_of_forall₂ hall hpair
    rw [getElem?_rowWrites, List.getElem?_eq_getElem hi] at hw
    obtain ⟨j, hj, rfl⟩ := map_eq_ok_iff.1 hplace
    cases hw
    exact hj
  · intro hapart
    have hdiffer : KeysDiffer ((e.inputNames.zip values).map Prod.fst) := by
      rw [hkeys]
      exact hapart.differ
    rw [lastValues_eq_self hdiffer]
    refine (mapM_eq_ok_iff _ _ _).2 (List.forall₂_iff_get.2 ⟨?_, fun i hi _ => ?_⟩)
    · rw [hzip, length_rowWrites]
    · have hlt : i < e.inputNames.length := by omega
      have hown := hapart.own i _ (List.getElem?_eq_getElem hlt)
      simp [rowWrites, hown]

variable [Scalar α]

/-- The engine whose inputs are assigned the values of a row, each one the value at its place. -/
def withRow (e : Engine α) (values : List α) : Engine α :=
  { e with store := { e.store with inputs := List.zipWith Variable.assign e.store.inputs values } }

/-- Writes to all places in turn assign every input the value at its place. -/
theorem write_row {e : Engine α} {values : List α} (hlength : values.length = e.inputs.length) :
    e.write (rowWrites values) = e.withRow values := by
  -- the inputs before are done with, the rest has yet to get its values
  have hstep : ∀ (before rest : List (Variable α)) (xs : List α), xs.length = rest.length →
      ((List.range' before.length xs.length).zip xs).foldl (fun vs w => vs.modify w.1 fun v => v.assign w.2)
        (before ++ rest) = before ++ List.zipWith Variable.assign rest xs := by
    intro before rest xs hxs
    induction xs generalizing before rest with
    | nil =>
      obtain rfl : rest = [] := List.length_eq_zero_iff.1 hxs.symm
      rfl
    | cons x xs ih =>
      obtain ⟨v, rest, rfl⟩ := List.exists_cons_of_length_eq_add_one hxs.symm
      have hmodify : (before ++ v :: rest).modify before.length (fun v => v.assign x) =
          (before ++ [v.assign x]) ++ rest := by
        rw [List.modify_eq_set_getElem?]
        simp
      have hnext := ih (before ++ [v.assign x]) rest (by simpa using hxs)
      rw [List.length_append, List.length_singleton] at hnext
      rw [List.length_cons, List.range'_succ, List.zip_cons_cons, List.foldl_cons, hmodify, hnext,
        List.zipWith_cons_cons, List.append_assoc, List.singleton_append]
  have hinputs := hstep [] e.store.inputs values hlength
  rw [write, withRow, rowWrites, List.range_eq_range']
  exact congrArg (fun vs => { e with store := { e.store with inputs := vs } }) hinputs

end Engine

/-! ## §2 Rows on the way out -/

namespace Controller

variable {α : Type}

/-- The answer to a row: the values of the outputs, where those of one name are merged. -/
def row (c : Controller α) : List α := c.outputs.map Prod.snd

/-- The answer has as many values as there are outputs when their names differ, and fewer otherwise. -/
theorem length_row_iff (c : Controller α) :
    c.row.length = c.engine.outputs.length ↔ KeysDiffer c.outputNames := by
  have hkeys : (c.engine.outputs.map fun v => (v.name, v.value)).map Prod.fst = c.outputNames := by
    rw [List.map_map]
    rfl
  rw [← hkeys, ← length_lastValues_eq_iff, row, outputs, List.length_map, List.length_map]

/-- The answer has the value of every output in its place exactly when their names differ. -/
theorem row_eq_iff (c : Controller α) :
    (c.row = c.engine.outputs.map fun v => v.value) ↔ KeysDiffer c.outputNames := by
  refine ⟨fun h => ?_, fun h => ?_⟩
  · rw [← length_row_iff, h, List.length_map]
  · have hkeys : KeysDiffer ((c.engine.outputs.map fun v => (v.name, v.value)).map Prod.fst) := by
      rw [List.map_map]
      exact h
    rw [row, outputs, lastValues_eq_self hkeys, List.map_map]
    rfl

variable [Scalar α] {c : Controller α} {values : List α}

theorem processRow_eq (h : values.length = c.inputNames.length) :
    c.processRow values = c.process (c.inputNames.zip values) :=
  if_pos h

/-- A row is carried out by writes, whatever places the names of the inputs mean. -/
theorem processRow_of_writes (hids : c.engine.InputsNumbered) (hlength : values.length = c.inputNames.length)
    {ws : List (Nat × α)} (h : c.engine.writes (lastValues (c.inputNames.zip values)) = .ok ws) :
    (c.processRow values).error = (c.engine.write ws).process.error ∧
      (c.processRow values).state.engine = (c.engine.write ws).process.state ∧
      (c.processRow values).state.cycle =
        if (c.engine.write ws).process.error.isNone then c.cycle + 1 else c.cycle := by
  rw [processRow_eq hlength]
  exact process_assigned (assignInputs_of_ok hids h)

/-- A row is refused when the name of an input means none of them. -/
theorem processRow_of_unknown (hids : c.engine.InputsNumbered) (hlength : values.length = c.inputNames.length)
    {err : Error} (h : c.engine.writes (lastValues (c.inputNames.zip values)) = .error err) :
    (c.processRow values).error.isSome = true ∧ (c.processRow values).state.cycle = c.cycle := by
  obtain ⟨before, p, after, ws, hsplit, hbefore, hp⟩ := Engine.exists_of_writes_error h
  have hassign := assignInputs_of_error hids hbefore hp after
  rw [← hsplit] at hassign
  obtain ⟨herror, -, hcycle⟩ := process_unassigned hassign
  rw [processRow_eq hlength]
  exact ⟨Option.isSome_iff_exists.2 ⟨_, herror⟩, hcycle⟩

end Controller

/-! ## §3 Controllers in use -/

section Labels

variable {α : Type}

/-- What a client cannot change about the variables: the identities of the inputs and the names of the outputs. -/
def Engine.labels (e : Engine α) : List Nat × List Name := (e.inputs.map fun v => v.id, e.outputNames)

variable [Scalar α]

theorem Engine.labels_setInputValue {e e' : Engine α} {key : Key} {x : α} (h : e.setInputValue key x = .ok e') :
    e'.labels = e.labels := by
  obtain ⟨v, -, he'⟩ := bind_eq_ok_iff.1 h
  cases he'
  have hids : (e.store.modifyInput v.id fun v => v.assign x).inputs.map (fun v => v.id) =
      e.store.inputs.map fun v => v.id := by
    simp only [Variables.modifyInput, List.map_map]
    refine List.map_congr_left fun w _ => ?_
    simp only [Function.comp_apply]
    split
    · rfl
    · rfl
  exact congrArg (·, e.outputNames) hids

theorem Engine.labels_process (e : Engine α) : e.process.state.labels = e.labels := by
  -- a cycle keeps the form of the engine, which has both
  have hforms := congrArg Engine.labels e.form_process
  have hlabels : ∀ f : Engine α, f.form.labels = f.labels := by
    intro f
    simp [labels, form, Variables.form, inputs, outputNames, outputs, OutputVariable.form, Function.comp_def]
  rwa [hlabels, hlabels] at hforms

theorem Engine.labels_restart (e : Engine α) : e.restart.labels = e.labels := by
  simp [labels, restart, inputs, outputNames, outputs, Variable.assign, OutputVariable.clear, Function.comp_def]

namespace Controller

theorem labels_assignInputs (ps : List (Name × α)) (e : Engine α) : (assignInputs ps e).state.labels = e.labels := by
  refine Outcome.state_each_eq (f := Engine.labels) (fun p e => ?_) ps e
  cases h : e.setInputValue (.ofName p.1) p.2 with
  | ok e' => exact Engine.labels_setInputValue h
  | error err => rfl

theorem labels_process (c : Controller α) (inputs : List (Name × α)) :
    (c.process inputs).state.engine.labels = c.engine.labels := by
  have hassign := labels_assignInputs (lastValues inputs) c.engine
  rw [(c.process_eq inputs).2.1, state_cycleOf]
  cases (assignInputs (lastValues inputs) c.engine).error with
  | some err => exact hassign
  | none => exact (Engine.labels_process _).trans hassign

theorem labels_processRow (c : Controller α) (values : List α) :
    (c.processRow values).state.engine.labels = c.engine.labels := by
  unfold processRow
  split
  · exact c.labels_process _
  · rfl

end Controller

end Labels

/-- What may be done with a controller. -/
inductive Call
  | process (inputs : List (Name × Float))
  | row (values : List Float)
  | restart

namespace Controller

/-- The controller after a call, which may have been stopped. -/
def call (c : Controller Float) : Call → Controller Float
  | .process inputs => (c.process inputs).state
  | .row values => (c.processRow values).state
  | .restart => c.restart.state

/-- The controller was made from a document, and called since. -/
def Serves (c : Controller Float) (r : TermRegistry) (doc : Value) : Prop :=
  ∃ c₀ calls, (ofDocument r doc).value = .ok c₀ ∧ c = List.foldl call c₀ calls

theorem labels_call (c : Controller Float) (k : Call) : (c.call k).engine.labels = c.engine.labels := by
  cases k with
  | process inputs => exact c.labels_process inputs
  | row values => exact c.labels_processRow values
  | restart => exact c.engine.labels_restart

theorem labels_foldl_call (c : Controller Float) (calls : List Call) :
    (calls.foldl call c).engine.labels = c.engine.labels := by
  induction calls generalizing c with
  | nil => rfl
  | cons k calls ih => rw [List.foldl_cons, ih, labels_call]

end Controller

/-! ## §4 Controllers of documents -/

namespace Engine

theorem inputs_configureBy {e e' : Engine Float} {s : Value} (h : (e.configureBy s).value = .ok e') :
    e'.inputs = e.inputs := by
  unfold configureBy configure at h
  split at h
  · cases h
  · split at h
    · cases h
    · rw [Outcome.value_andThen, Outcome.value_map] at h
      obtain ⟨e₁, hequipped, h⟩ := bind_eq_ok_iff.1 h
      obtain ⟨ws, -, rfl⟩ := map_eq_ok_iff.1 hequipped
      cases h
      rfl

theorem inputs_settleTypes {name : Value} {e e' : Engine Float} (h : (settleTypes name e).value = .ok e') :
    e'.inputs = e.inputs := by
  unfold settleTypes at h
  split at h
  · cases h
    rfl
  · split at h
    · cases h
    · cases h
      rfl

/-- Where all variables have identities of their own, the inputs have. -/
theorem IsNumbered.inputsNumbered {e : Engine Float} (h : e.IsNumbered) : e.InputsNumbered := by
  have hdistinct := h.distinct
  rw [members, membersOf, List.map_append, List.map_map] at hdistinct
  exact hdistinct.of_append_left

/-- The inputs of a document get identities of their own. -/
theorem inputsNumbered_ofDocument {r : TermRegistry} {strict : Bool} {doc : Value} {e : Engine Float}
    (h : (ofDocument r strict doc).value = .ok e) : e.InputsNumbered := by
  rw [value_ofDocument] at h
  obtain ⟨e₃, hprepared, hloaded⟩ := bind_eq_ok_iff.1 h
  obtain ⟨e₁, hassembled, h⟩ := bind_eq_ok_iff.1 hprepared
  obtain ⟨e₂, hconfigured, hsettled⟩ := bind_eq_ok_iff.1 h
  obtain ⟨-, rfl⟩ := Outcome.value_eq_ok_iff.1 hloaded
  -- the document is carried out as edits, of which each addition takes the next number
  obtain ⟨ds, rfl, -⟩ := exists_edits_of_assemble hassembled
  have hinputs : (loadChecked strict e₃).state.inputs = (assembled (settings doc).label ds).inputs := by
    rw [inputs, store_loadChecked, ← inputs_configureBy hconfigured, ← inputs_settleTypes hsettled]
    rfl
  rw [InputsNumbered, hinputs]
  exact (isNumbered_assembled (settings doc).label ds).inputsNumbered

end Engine

namespace Controller

theorem engine_ofDocument {r : TermRegistry} {doc : Value} {c : Controller Float}
    (h : (ofDocument r doc).value = .ok c) : (Engine.ofDocument r true doc).value = .ok c.engine := by
  unfold ofDocument at h
  dsimp only at h
  split at h
  · cases h
  next hdone =>
    split at h
    · cases h
      exact Outcome.value_of_error_eq_none hdone
    · cases h

theorem inputsNumbered_of_serves {c : Controller Float} {r : TermRegistry} {doc : Value} (h : c.Serves r doc) :
    c.engine.InputsNumbered := by
  obtain ⟨c₀, calls, hmade, rfl⟩ := h
  have hids : ((calls.foldl call c₀).engine.inputs.map fun v => v.id) = c₀.engine.inputs.map fun v => v.id :=
    congrArg Prod.fst (c₀.labels_foldl_call calls)
  rw [Engine.InputsNumbered, hids]
  exact Engine.inputsNumbered_ofDocument (engine_ofDocument hmade)

/-- Calling a controller that was made from a document with a row of as many values as there are inputs. Where the
inputs are apart, the engine runs one cycle in which every input has the value at its place, brought into its range
where that is locked. The names of the inputs mean their places in turn exactly when the inputs are apart, as they
are by names that are different texts; otherwise the row is carried out by the writes that they do mean, or refused
when one of them means no input. On completion the cycle is counted, and the answer is the list of the values of all outputs exactly when their names
differ, and shorter than this list otherwise. -/
theorem processRow_spec {c : Controller Float} {r : TermRegistry} {doc : Value} (h : c.Serves r doc)
    {values : List Float} (hlength : values.length = c.inputNames.length) :
    (c.engine.InputsApart →
      (c.processRow values).error = (c.engine.withRow values).process.error ∧
      (c.processRow values).state.engine = (c.engine.withRow values).process.state) ∧
    (c.engine.writes (lastValues (c.inputNames.zip values)) = .ok (Engine.rowWrites values) ↔
      c.engine.InputsApart) ∧
    (∀ names : List String, c.inputNames = names.map .text → (c.engine.InputsApart ↔ names.Nodup)) ∧
    (∀ ws, c.engine.writes (lastValues (c.inputNames.zip values)) = .ok ws →
      (c.processRow values).error = (c.engine.write ws).process.error ∧
      (c.processRow values).state.engine = (c.engine.write ws).process.state) ∧
    (∀ err, c.engine.writes (lastValues (c.inputNames.zip values)) = .error err →
      (c.processRow values).error.isSome = true) ∧
    ((c.processRow values).error = none →
      (c.processRow values).state.cycle = c.cycle + 1 ∧
      (((c.processRow values).state.row = (c.processRow values).state.engine.outputs.map fun v => v.value) ↔
        KeysDiffer c.outputNames) ∧
      ((c.processRow values).state.row.length = c.engine.outputs.length ↔ KeysDiffer c.outputNames)) := by
  have hids := inputsNumbered_of_serves h
  have hrow := Engine.writes_row_iff (e := c.engine) hlength
  refine ⟨fun hapart => ?_, hrow, fun names hnames => Engine.inputsApart_iff_of_texts hnames, fun ws hws => ?_,
    fun err herr => ?_, fun hdone => ?_⟩
  · -- the writes go to all places in turn
    obtain ⟨herror, hstate, -⟩ := processRow_of_writes hids hlength (hrow.2 hapart)
    rw [Engine.write_row (hlength.trans (List.length_map _))] at herror hstate
    exact ⟨herror, hstate⟩
  · obtain ⟨herror, hstate, -⟩ := processRow_of_writes hids hlength hws
    exact ⟨herror, hstate⟩
  · exact (processRow_of_unknown hids hlength herr).1
  · -- the answer is read off the controller after the call, whose outputs have the same names
    have hnames : (c.processRow values).state.outputNames = c.outputNames :=
      congrArg Prod.snd (c.labels_processRow values)
    have hcount : (c.processRow values).state.engine.outputs.length = c.engine.outputs.length := by
      have hlabels := congrArg List.length hnames
      rwa [outputNames, outputNames, Engine.outputNames, Engine.outputNames, List.length_map, List.length_map] at hlabels
    refine ⟨?_, ?_, ?_⟩
    · rw [processRow_eq hlength] at hdone ⊢
      obtain ⟨herror, -, hcycle⟩ := c.process_eq (c.inputNames.zip values)
      rw [hcycle, ← herror, hdone]
      rfl
    · rw [row_eq_iff, hnames]
    · rw [← hcount, length_row_iff, hnames]

/-- A document of two outputs of one name, only one of which has a rule. -/
def twinOutputsDocument : Value :=
  .table
    [("engine", .table [("defuzzifier", .text "WeightedAverage"), ("type", .text "TakagiSugeno")]),
      ("input", .list [.table
        [("name", .text "x"), ("terms", .list [.table
          [("type", .text "Rectangle"), ("name", .text "ALL"), ("parameters", .list [.float 0.0, .float 1.0])]])]]),
      ("output", .list [
        .table [("name", .text "y"), ("terms", .list [.table
          [("type", .text "Constant"), ("name", .text "ONE"), ("parameters", .list [.float 1.0])]])],
        .table [("name", .text "y"), ("default", .float 7.0)]]),
      ("rule_block", .list [.table [("rules", .list [.text "if x is ALL then y is ONE"])]])]

/-- The row is carried out, but its answer has one value for two outputs. -/
theorem processRow_spec_twinOutputs :
    (ofDocument .standard twinOutputsDocument).error = none ∧
    ((ofDocument .standard twinOutputsDocument).state.processRow [0.5]).error = none ∧
    ((ofDocument .standard twinOutputsDocument).state.processRow [0.5]).state.row.length = 1 ∧
    ¬((ofDocument .standard twinOutputsDocument).state.processRow [0.5]).state.row =
      ((ofDocument .standard twinOutputsDocument).state.processRow [0.5]).state.engine.outputs.map
        fun v => v.value := by
  have hmade : (ofDocument .standard twinOutputsDocument).error = none := by decide +kernel
  have hdone : ((ofDocument .standard twinOutputsDocument).state.processRow [0.5]).error = none := by decide +kernel
  have hserves : (ofDocument .standard twinOutputsDocument).state.Serves .standard twinOutputsDocument :=
    ⟨_, [], Outcome.value_of_error_eq_none hmade, rfl⟩
  have hsame : ¬KeysDiffer (ofDocument .standard twinOutputsDocument).state.outputNames := by decide +kernel
  have hlength : [0.5].length = (ofDocument .standard twinOutputsDocument).state.inputNames.length := by
    decide +kernel
  have hspec := ((processRow_spec hserves hlength).2.2.2.2.2 hdone).2.1
  exact ⟨hmade, hdone, by decide +kernel, fun hrow => hsame (hspec.1 hrow)⟩

end Controller

end FuzzyInference
