import FuzzyInference.Proofs.Faults.Controller
import FuzzyInference.Proofs.Frame
import Mathlib.Data.List.Induction

/-!
# Assigning inputs

A controller takes the values of inputs by name. Pairs of names and values first become an assignment, in which
names that count as one are merged; then the inputs are looked up one after the other and get their values, until
a name is unknown. A name that is a whole number or a truth value is looked up as a position.

Where an input is does not depend on values, so that all names can be looked up before the first value is
assigned. What an assignment does is then a list of *writes*, places of inputs with values, of which those before
the first unknown name are carried out.

The plan of this module:

* keys that differ, and assignments that lose no pair;
* places of inputs, and writes;
* what assigning inputs does to an engine;
* cycles of a controller.

## Main statements

* `length_lastValues_eq_iff`: an assignment keeps all pairs when their keys differ
* `Engine.setInputValue_eq`: assigning one input is one write
* `Engine.getElem?_inputs_write`: the inputs after writes
* `Controller.assignInputs_of_ok`, `Controller.assignInputs_of_error`: assigning inputs
* `Controller.process_unassigned`, `Controller.process_assigned`: a cycle of a controller
-/

namespace FuzzyInference

open Scalar Checked

/-! ## §1 Keys that differ -/

section Keys

variable {κ α : Type} [BEq κ]

/-- No two keys count as one. -/
def KeysDiffer (ks : List κ) : Prop := ks.Pairwise fun a b => (a == b) = false

instance (ks : List κ) : Decidable (KeysDiffer ks) :=
  inferInstanceAs (Decidable (ks.Pairwise fun a b => (a == b) = false))

/-- Texts differ as names when they are different. -/
theorem keysDiffer_texts (ss : List String) : KeysDiffer (ss.map Name.text) ↔ ss.Nodup := by
  rw [KeysDiffer, List.pairwise_map, List.Nodup]
  simp only [Name.text_beq_text, beq_eq_false_iff_ne, ne_eq]

theorem keysDiffer_concat (ks : List κ) (k : κ) :
    KeysDiffer (ks ++ [k]) ↔ KeysDiffer ks ∧ ks.any (· == k) = false := by
  rw [KeysDiffer, List.pairwise_append]
  simp [KeysDiffer]

theorem lastValues_concat (ps : List (κ × α)) (p : κ × α) :
    lastValues (ps ++ [p]) = putValue p (lastValues ps) := by
  rw [lastValues, List.foldl_append]
  rfl

/-- Pairs whose keys differ are an assignment as they are. -/
theorem lastValues_eq_self {ps : List (κ × α)} (h : KeysDiffer (ps.map Prod.fst)) : lastValues ps = ps := by
  induction ps using List.reverseRecOn with
  | nil => rfl
  | append_singleton ps p ih =>
    rw [List.map_append, List.map_singleton, keysDiffer_concat] at h
    rw [lastValues_concat, ih h.1, putValue_of_not_any p h.2]

theorem length_putValue (p : κ × α) (qs : List (κ × α)) :
    (putValue p qs).length = if (qs.map Prod.fst).any (· == p.1) then qs.length else qs.length + 1 := by
  split
  next hany =>
    have hkeys := congrArg List.length (keys_putValue_of_any p hany)
    rwa [List.length_map, List.length_map] at hkeys
  next hany => rw [putValue_of_not_any p (Bool.not_eq_true _ ▸ hany), List.length_append, List.length_singleton]

theorem length_lastValues_le (ps : List (κ × α)) : (lastValues ps).length ≤ ps.length := by
  induction ps using List.reverseRecOn with
  | nil => exact Nat.le_refl 0
  | append_singleton ps p ih =>
    rw [lastValues_concat, length_putValue, List.length_append, List.length_singleton]
    split <;> omega

/-- An assignment keeps all pairs when their keys differ, and is shorter otherwise. -/
theorem length_lastValues_eq_iff (ps : List (κ × α)) :
    (lastValues ps).length = ps.length ↔ KeysDiffer (ps.map Prod.fst) := by
  refine ⟨fun h => ?_, fun h => by rw [lastValues_eq_self h]⟩
  induction ps using List.reverseRecOn with
  | nil => exact .nil
  | append_singleton ps p ih =>
    have hle := length_lastValues_le ps
    rw [lastValues_concat, length_putValue, List.length_append, List.length_singleton] at h
    split at h
    · omega
    next hany =>
      -- nothing was merged before the last pair either
      have hkeys := ih (by omega)
      rw [lastValues_eq_self hkeys] at hany
      rw [List.map_append, List.map_singleton, keysDiffer_concat]
      exact ⟨hkeys, Bool.not_eq_true _ ▸ hany⟩

end Keys

/-! ## §2 Places and writes -/

namespace Collection

variable {ι : Type} {c : Collection} {nameOf : ι → Name}

/-- Where a member is depends on the names alone. -/
theorem find_congr {xs ys : List ι} (h : xs.map nameOf = ys.map nameOf) (key : Key) :
    c.find nameOf xs key = c.find nameOf ys key := by
  have hlength : xs.length = ys.length := by simpa using congrArg List.length h
  cases key with
  | position i => simp only [find, hlength]
  | name n =>
    -- what is looked up is a place in the list of names
    have hindex : ∀ zs : List ι, (zs.findIdx? fun x => nameOf x == n) = (zs.map nameOf).findIdx? (· == n) := by
      intro zs
      rw [List.findIdx?_map]
      rfl
    simp only [find, hindex, h]

theorem lt_of_find {xs : List ι} {key : Key} {i : Nat} (h : c.find nameOf xs key = .ok i) : i < xs.length := by
  unfold find at h
  cases key with
  | position j =>
    dsimp only at h
    split at h
    next hj =>
      cases h
      simp only [Bool.and_eq_true, decide_eq_true_eq] at hj
      omega
    next => cases h
  | name n =>
    dsimp only at h
    split at h
    next k hk =>
      cases h
      exact (List.findIdx?_eq_some_iff_findIdx_eq.1 hk).1
    next => cases h

/-- The member that is found stands at its place. -/
theorem get_eq_ok {xs : List ι} {key : Key} {i : Nat} {x : ι} (hi : c.find nameOf xs key = .ok i)
    (hx : xs[i]? = some x) : c.get nameOf xs key = .ok x := by
  rw [get, hi, ok_bind, hx]
  rfl

end Collection

namespace Engine

variable {α : Type}

/-- Where the input is that a name means. -/
def placeOf (e : Engine α) (n : Name) : Except Error Nat :=
  Collection.inputVariables.find (fun v => v.name) e.inputs (.ofName n)

/-- The writes that pairs of names and values mean, refused when a name is unknown. -/
def writes (e : Engine α) (ps : List (Name × α)) : Except Error (List (Nat × α)) :=
  ps.mapM fun p => (fun i => (i, p.2)) <$> e.placeOf p.1

/-- Pairs of which a name is unknown are split at the first such name. -/
theorem exists_of_writes_error {e : Engine α} {ps : List (Name × α)} {err : Error} (h : e.writes ps = .error err) :
    ∃ before p after ws, ps = before ++ p :: after ∧ e.writes before = .ok ws ∧ e.placeOf p.1 = .error err := by
  obtain ⟨before, p, after, ws, hps, hbefore, hp⟩ := (mapM_eq_error_iff _ _ _).1 h
  exact ⟨before, p, after, ws, hps, hbefore, map_eq_error_iff.1 hp⟩

/-- The inputs have identities of their own. -/
def InputsNumbered (e : Engine α) : Prop := (e.inputs.map fun v => v.id).Nodup

/-- Changing the inputs of an identity changes the one at its place. -/
theorem modifyInput_eq {e : Engine α} (h : e.InputsNumbered) {i : Nat} {v : Variable α} (hv : e.inputs[i]? = some v)
    (f : Variable α → Variable α) :
    (e.store.modifyInput v.id f).inputs = e.store.inputs.modify i f := by
  refine List.ext_getElem? fun j => ?_
  show (e.inputs.map fun w => if w.id == v.id then f w else w)[j]? = (e.inputs.modify i f)[j]?
  rw [List.getElem?_map, List.getElem?_modify]
  cases hw : e.inputs[j]? with
  | none => rfl
  | some w =>
    -- another input has another identity
    have hplace : (w.id == v.id) = decide (i = j) := by
      by_cases hij : i = j
      · subst hij
        rw [hv] at hw
        cases hw
        simp
      · have hne : w.id ≠ v.id := by
          intro hid
          have hi : (e.inputs.map fun v => v.id)[i]? = some v.id := by rw [List.getElem?_map, hv]; rfl
          have hj : (e.inputs.map fun v => v.id)[j]? = some v.id := by rw [List.getElem?_map, hw, ← hid]; rfl
          exact hij ((List.getElem?_inj (List.getElem?_eq_some_iff.1 hi).1 h).1 (hi.trans hj.symm))
        simp [hne, hij]
    simp only [Option.map_some, hplace, decide_eq_true_eq]
    split <;> rfl

variable [Scalar α]

/-- Assigns values to inputs by their places, one after the other. -/
def write (e : Engine α) (ws : List (Nat × α)) : Engine α :=
  { e with store := { e.store with
    inputs := ws.foldl (fun vs w => vs.modify w.1 fun v => v.assign w.2) e.store.inputs } }

@[simp] theorem write_write (e : Engine α) (ws us : List (Nat × α)) : (e.write ws).write us = e.write (ws ++ us) := by
  simp only [write, List.foldl_append]

/-- What assigning leaves alone is left alone by writes. -/
theorem map_inputs_write {β : Type} {f : Variable α → β} (hf : ∀ v x, f (Variable.assign v x) = f v) (e : Engine α)
    (ws : List (Nat × α)) : (e.write ws).inputs.map f = e.inputs.map f := by
  induction ws generalizing e with
  | nil => rfl
  | cons w ws ih =>
    -- the first write changes one input, in a part that does not matter
    have hsplit : e.write (w :: ws) = (e.write [w]).write ws := (e.write_write [w] ws).symm
    have hstep : (e.write [w]).inputs.map f = e.inputs.map f := by
      show (e.inputs.modify w.1 fun v => v.assign w.2).map f = _
      refine List.ext_getElem? fun j => ?_
      rw [List.getElem?_map, List.getElem?_map, List.getElem?_modify]
      cases e.inputs[j]? with
      | none => rfl
      | some v =>
        show some (f (if w.1 = j then v.assign w.2 else v)) = some (f v)
        split
        · rw [hf]
        · rfl
    rw [hsplit, ih, hstep]

/-- After writes an input has the value that was written to its place last, or the one that it had. -/
theorem getElem?_inputs_write (e : Engine α) (ws : List (Nat × α)) (i : Nat) :
    (e.write ws).inputs[i]? =
      e.inputs[i]?.map fun v => ((ws.reverse.lookup i).map fun x => v.assign x).getD v := by
  induction ws using List.reverseRecOn with
  | nil =>
    show e.inputs[i]? = e.inputs[i]?.map id
    rw [Option.map_id_fun, id_eq]
  | append_singleton ws w ih =>
    have hlast : (e.write (ws ++ [w])).inputs = (e.write ws).inputs.modify w.1 fun v => v.assign w.2 := by
      rw [← write_write]
      rfl
    rw [hlast, List.getElem?_modify, ih, List.reverse_append, List.reverse_singleton, List.singleton_append,
      List.lookup_cons]
    cases e.inputs[i]? with
    | none => rfl
    | some v =>
      by_cases hi : w.1 = i
      · -- what was assigned before does not matter
        subst hi
        cases hbefore : ws.reverse.lookup w.1 <;> simp [Variable.assign]
      · have hne : (i == w.1) = false := beq_false_of_ne (Ne.symm hi)
        simp [hi, hne]

theorem placeOf_write (e : Engine α) (ws : List (Nat × α)) : (e.write ws).placeOf = e.placeOf :=
  funext fun _ => Collection.find_congr (e.map_inputs_write (fun _ _ => rfl) ws) _

theorem writes_write (e : Engine α) (ws : List (Nat × α)) : (e.write ws).writes = e.writes := by
  funext ps
  rw [writes, placeOf_write, writes]

theorem InputsNumbered.write {e : Engine α} (h : e.InputsNumbered) (ws : List (Nat × α)) :
    (e.write ws).InputsNumbered := by
  rw [InputsNumbered, e.map_inputs_write (fun _ _ => rfl)]
  exact h

/-- Assigning one input is one write. -/
theorem setInputValue_eq {e : Engine α} (h : e.InputsNumbered) (n : Name) (x : α) :
    e.setInputValue (.ofName n) x = (fun i => e.write [(i, x)]) <$> e.placeOf n := by
  cases hi : e.placeOf n with
  | error err =>
    have hget : e.input (.ofName n) = .error err := by
      rw [input, Collection.get]
      show (e.placeOf n >>= _) = _
      rw [hi, error_bind]
    rw [setInputValue, hget]
    rfl
  | ok i =>
    have hlt : i < e.inputs.length := Collection.lt_of_find hi
    have hv : e.inputs[i]? = some e.inputs[i] := List.getElem?_eq_getElem hlt
    have hget : e.input (.ofName n) = .ok e.inputs[i] := Collection.get_eq_ok hi hv
    have hstore : e.store.modifyInput e.inputs[i].id (fun v => v.assign x) =
        { e.store with inputs := e.store.inputs.modify i fun v => v.assign x } :=
      congrArg (fun vs => { e.store with inputs := vs }) (modifyInput_eq h hv _)
    rw [setInputValue, hget, ok_bind, hstore]
    rfl

end Engine

/-! ## §3 Assigning -/

namespace Controller

open Engine

variable {α : Type} [Scalar α]

theorem assignInputs_cons_of_ok {e e' : Engine α} {p : Name × α} (h : e.setInputValue (.ofName p.1) p.2 = .ok e')
    (ps : List (Name × α)) : assignInputs (p :: ps) e = assignInputs ps e' := by
  rw [assignInputs, Outcome.each, h]
  exact Outcome.done_andThen _ _

theorem assignInputs_cons_of_error {e : Engine α} {p : Name × α} {err : Error}
    (h : e.setInputValue (.ofName p.1) p.2 = .error err) (ps : List (Name × α)) :
    assignInputs (p :: ps) e = .stop err e := by
  rw [assignInputs, Outcome.each, h]
  exact Outcome.andThen_stopped _ _ rfl

/-- Names that are all known: the inputs at their places get the values, one after the other. -/
theorem assignInputs_of_ok {e : Engine α} (hids : e.InputsNumbered) {ps : List (Name × α)} {ws : List (Nat × α)}
    (h : e.writes ps = .ok ws) : assignInputs ps e = .done (e.write ws) := by
  -- the places do not change while values are assigned
  induction ps generalizing e ws with
  | nil =>
    cases h
    rfl
  | cons p ps ih =>
    rw [writes, List.mapM_cons] at h
    obtain ⟨w, hw, h⟩ := bind_eq_ok_iff.1 h
    obtain ⟨us, hus, h⟩ := bind_eq_ok_iff.1 h
    obtain ⟨i, hi, rfl⟩ := map_eq_ok_iff.1 hw
    cases h
    have hset : e.setInputValue (.ofName p.1) p.2 = .ok (e.write [(i, p.2)]) := by
      rw [setInputValue_eq hids, hi]
      rfl
    have hrest : (e.write [(i, p.2)]).writes ps = .ok us := by rwa [writes_write]
    rw [assignInputs_cons_of_ok hset, ih (hids.write _) hrest, write_write, List.singleton_append]

/-- A name that is unknown ends the assignment; the names before it have been assigned. -/
theorem assignInputs_of_error {e : Engine α} (hids : e.InputsNumbered) {before : List (Name × α)} {p : Name × α}
    {ws : List (Nat × α)} {err : Error} (hbefore : e.writes before = .ok ws) (hp : e.placeOf p.1 = .error err)
    (after : List (Name × α)) :
    assignInputs (before ++ p :: after) e = .stop err (e.write ws) := by
  -- the name is as unknown after the writes as it was before
  have hset : (e.write ws).setInputValue (.ofName p.1) p.2 = .error err := by
    rw [setInputValue_eq (hids.write ws), placeOf_write, hp]
    rfl
  have hsplit : assignInputs (before ++ p :: after) e =
      (assignInputs before e).andThen (assignInputs (p :: after)) := Outcome.each_append _ _ _ _
  rw [hsplit, assignInputs_of_ok hids hbefore, Outcome.done_andThen, assignInputs_cons_of_error hset]

/-! ## §4 Cycles -/

variable {c : Controller α} {inputs : List (Name × α)}

/-- A cycle of a controller is one of its engine, and counts when it is completed. -/
theorem process_eq (c : Controller α) (inputs : List (Name × α)) :
    (c.process inputs).error = (cycleOf inputs c.engine).error ∧
      (c.process inputs).state.engine = (cycleOf inputs c.engine).state ∧
      (c.process inputs).state.cycle = if (cycleOf inputs c.engine).error.isNone then c.cycle + 1 else c.cycle := by
  have hcycle : cycleOf inputs c.engine =
      ((Outcome.report (.controllerCycleStarted (Engine.shownValues (lastValues inputs))) c.engine).andThen
        (assignInputs (lastValues inputs))).andThen Engine.process := rfl
  unfold process
  dsimp only
  rw [← hcycle]
  cases h : (cycleOf inputs c.engine).error with
  | some err => exact ⟨rfl, rfl, rfl⟩
  | none => exact ⟨rfl, rfl, rfl⟩

theorem state_cycleOf (inputs : List (Name × α)) (e : Engine α) :
    (cycleOf inputs e).state =
      match (assignInputs (lastValues inputs) e).error with
      | some _ => (assignInputs (lastValues inputs) e).state
      | none => (assignInputs (lastValues inputs) e).state.process.state := by
  -- the report at the start changes nothing
  have herror : ((Outcome.report (.controllerCycleStarted (Engine.shownValues (lastValues inputs)))
      e).andThen (assignInputs (lastValues inputs))).error = (assignInputs (lastValues inputs) e).error :=
    Outcome.error_andThen_of_done rfl _
  have hstate : ((Outcome.report (.controllerCycleStarted (Engine.shownValues (lastValues inputs)))
      e).andThen (assignInputs (lastValues inputs))).state = (assignInputs (lastValues inputs) e).state :=
    Outcome.state_andThen_of_done rfl _
  unfold cycleOf
  cases h : (assignInputs (lastValues inputs) e).error with
  | some err => rw [Outcome.andThen_stopped _ _ (herror.trans h), hstate]
  | none => rw [Outcome.state_andThen_of_done (herror.trans h), hstate]

/-- A controller whose inputs cannot be assigned does not start the engine. -/
theorem process_unassigned {err : Error} {e : Engine α}
    (h : assignInputs (lastValues inputs) c.engine = .stop err e) :
    (c.process inputs).error = some err ∧ (c.process inputs).state.engine = e ∧
      (c.process inputs).state.cycle = c.cycle := by
  obtain ⟨hprocess, hengine, hcount⟩ := c.process_eq inputs
  rw [hprocess, hengine, hcount, error_cycleOf, state_cycleOf, h]
  exact ⟨rfl, rfl, rfl⟩

/-- A controller whose inputs are assigned runs one cycle of the engine. -/
theorem process_assigned {e : Engine α} (h : assignInputs (lastValues inputs) c.engine = .done e) :
    (c.process inputs).error = e.process.error ∧ (c.process inputs).state.engine = e.process.state ∧
      (c.process inputs).state.cycle = if e.process.error.isNone then c.cycle + 1 else c.cycle := by
  obtain ⟨hprocess, hengine, hcount⟩ := c.process_eq inputs
  rw [hprocess, hengine, hcount, error_cycleOf, state_cycleOf, h]
  exact ⟨rfl, rfl, rfl⟩

end Controller

end FuzzyInference
