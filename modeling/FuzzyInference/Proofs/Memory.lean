import FuzzyInference.Proofs.History
import FuzzyInference.Proofs.Restart

/-!
# Previous values

An output may be asked to keep its previous value while no rule reaches it. What it keeps is the last number
that it had after an earlier cycle: cycles that ended with `nan` do not count, and the default value stands in
as long as there was no number at all.

A cycle writes the previous value down late. The value of one cycle becomes the previous value only when the
next one begins, and only if it is a number. So what an output remembers is not its previous value but the
one that it is about to have, and a run keeps the following: this is the last number so far, and it lies in
the range where the range is locked.

The plan of this module:

* the last number of a list;
* what a completed cycle does to one output;
* outputs that remember, through every use of the engine.

## Main statements

* `Engine.exists_defuzzify_process`: an output in a completed cycle
* `OutputVariable.Remembers.defuzzify`: what one defuzzification keeps
* `Engine.previousValue_session`: the previous value and the value of silent cycles in a session
-/

namespace FuzzyInference

open Scalar Checked

/-! ## §1 The last number of a list -/

/-- The last value that is a number. -/
def lastNumber? (xs : List Float) : Option Float := (xs.filter fun x => !isNaN x).getLast?

@[simp] theorem lastNumber?_nil : lastNumber? [] = none := rfl

@[simp] theorem lastNumber?_concat (xs : List Float) (x : Float) :
    lastNumber? (xs ++ [x]) = if isNaN x then lastNumber? xs else some x := by
  cases hx : isNaN x <;> simp [lastNumber?, hx]

theorem isNaN_of_lastNumber? {xs : List Float} {x : Float} (h : lastNumber? xs = some x) :
    isNaN x = false := by
  simpa using (List.mem_filter.1 (List.mem_of_getLast? h)).2

/-! ## §2 An output in a completed cycle -/

/-- The output with other activated terms. -/
def OutputVariable.withTerms (v : OutputVariable Float) (ts : List (Activated Float)) : OutputVariable Float :=
  { v with fuzzyOutput := { v.fuzzyOutput with terms := ts } }

namespace Engine

/-- The blocks add terms to the fuzzy output of an output, and do nothing else to it. -/
theorem exists_terms_infer {e : Engine Float} {i : Nat} {v : OutputVariable Float}
    (h : e.outputs[i]? = some v) : ∃ ts, e.infer.state.outputs[i]? = some (v.withTerms ts) := by
  obtain ⟨hstore, -⟩ := frame_activateBlocks e.blocks (clearOutputs e.store)
  have hplace := congrArg (fun vs : Variables Float => vs.outputs[i]?) hstore
  simp only [Variables.unfired, clearOutputs, List.getElem?_map, List.map_map, Function.comp_def] at hplace
  rw [show e.store.outputs[i]? = some v from h, Option.map_some, Option.map_eq_some_iff] at hplace
  obtain ⟨u, hu, huv⟩ := hplace
  -- without their terms both outputs are the same
  have hterms := congrArg (fun w : OutputVariable Float => w.withTerms u.fuzzyOutput.terms) huv
  exact ⟨u.fuzzyOutput.terms, hu.trans (congrArg some hterms)⟩

/-- A completed cycle defuzzifies every output with the terms that reached it. -/
theorem exists_defuzzify_process {e : Engine Float} (done : e.process.error = none) {i : Nat}
    {v : OutputVariable Float} (h : e.outputs[i]? = some v) :
    ∃ ts around w, (v.withTerms ts).defuzzify around = (w, .ok ()) ∧
      e.process.state.outputs[i]? = some w := by
  -- a cycle that a block stops is not completed
  have hinfer : e.infer.error = none := by
    cases herror : e.infer.error with
    | none => rfl
    | some err =>
      rw [(process_of_infer_error herror).1] at done
      cases done
  obtain ⟨ts, hts⟩ := exists_terms_infer h
  obtain ⟨hconclude, s, hs⟩ := conclude_eq e.infer.state
  rw [(process_of_infer_done hinfer).1, hconclude] at done
  obtain ⟨ws, hws, -, hall⟩ := exists_outputs_defuzzifyFrom e.infer.state.store [] e.infer.state.store.outputs
  obtain ⟨w, hw, around, hdefuzzify⟩ := exists_getElem?_of_forall₂ (hall done) hts
  refine ⟨ts, around, w, hdefuzzify, ?_⟩
  rw [(process_of_infer_done hinfer).2, hs]
  exact (congrArg (fun us => us[i]?) hws).trans hw

end Engine

/-! ## §3 Outputs that remember -/

namespace OutputVariable

variable {v w u : OutputVariable Float} {xs : List Float}

/-- What a cycle reads of an output beside its values and its fuzzy output. -/
theorem settleValue_eq_of_form (h : w.form = v.form) (x : Float) : w.settleValue x = v.settleValue x := by
  have hfields := congrArg (fun u : OutputVariable Float => (u.lockValueInRange, u.minimum, u.maximum)) h
  obtain ⟨hlock, hminimum, hmaximum⟩ : w.lockValueInRange = v.lockValueInRange ∧
      w.minimum = v.minimum ∧ w.maximum = v.maximum := by simpa [form] using hfields
  rw [settleValue, hlock, hminimum, hmaximum]
  rfl

theorem idleValue_of_keeps (h : v.lockPreviousValue = true) :
    v.idleValue = if isNaN v.previousValue then v.defaultValue else v.previousValue := by
  cases hnan : isNaN v.previousValue <;> simp [idleValue, h, hnan]

/-- Where the range is locked, its ends must be in order for values to lie in it. -/
def IsOrdered (v : OutputVariable Float) : Prop := v.lockValueInRange = true → v.minimum ≤ v.maximum

theorem IsOrdered.settleValue_settleValue (h : v.IsOrdered) (x : Float) :
    v.settleValue (v.settleValue x) = v.settleValue x := by
  cases hlock : v.lockValueInRange with
  | true => exact OutputVariable.settleValue_settleValue (h hlock) x
  | false => simp only [settleValue, hlock, Bool.false_and, Bool.false_eq_true, if_false]

/-- The output differs from the first one in what cycles compute, and it is about to have the last number of the
list as its previous value. -/
structure Remembers (v w : OutputVariable Float) (xs : List Float) : Prop where
  form : w.form = v.form
  memory : w.prepare.previousValue = (lastNumber? xs).getD nan
  settled : ∀ x, lastNumber? xs = some x → v.settleValue x = x

/-- An output that has computed nothing remembers nothing. -/
theorem remembers_nil (hform : w.form = v.form) (h : w.IsUnvalued) : Remembers v w [] where
  form := hform
  memory := by
    simp only [prepare, h.value, h.previousValue, ite_self]
    rfl
  settled := nofun

/-- An output that is defuzzified remembers the last number, with its value at the end. -/
theorem Remembers.defuzzify (h : Remembers v w xs) (ordered : v.IsOrdered) {ts : List (Activated Float)}
    {around : Option (Surroundings Float)} (hu : (w.withTerms ts).defuzzify around = (u, .ok ())) :
    Remembers v u (xs ++ [u.value]) ∧ u.previousValue = (lastNumber? xs).getD nan := by
  obtain ⟨x, -, rfl⟩ := exists_of_defuzzify_ok hu
  have hvalue : (w.withTerms ts).prepare.settleValue x = v.settleValue x := settleValue_eq_of_form h.form x
  rw [hvalue]
  refine ⟨⟨h.form, ?_, ?_⟩, h.memory⟩
  · -- the value is a number, or the previous value is still the one to remember
    rw [lastNumber?_concat]
    cases hnan : isNaN (v.settleValue x) with
    | true => exact (if_pos hnan).trans h.memory
    | false => exact if_neg (Bool.eq_false_iff.1 hnan)
  · intro y hy
    rw [lastNumber?_concat] at hy
    split at hy
    · exact h.settled y hy
    · obtain rfl := Option.some.inj hy
      exact ordered.settleValue_settleValue x

/-- An output that keeps its previous value has the last number as its value while no rule reaches it. -/
theorem Remembers.value_of_silent (h : Remembers v w xs) (keeps : v.lockPreviousValue = true)
    {ts : List (Activated Float)} {around : Option (Surroundings Float)}
    (hu : (w.withTerms ts).defuzzify around = (u, .ok ())) (silent : u.isActive = false) :
    u.value = (lastNumber? xs).getD (v.settleValue v.defaultValue) := by
  obtain ⟨x, hraw, rfl⟩ := exists_of_defuzzify_ok hu
  have hsilent : (w.withTerms ts).prepare.isActive = false := silent
  rw [rawValue, hsilent] at hraw
  obtain rfl : (w.withTerms ts).prepare.idleValue = x := Except.ok.inj hraw
  have hform : (w.withTerms ts).prepare.form = v.form := h.form
  have hkeeps : (w.withTerms ts).prepare.lockPreviousValue = true :=
    (congrArg (fun u : OutputVariable Float => u.lockPreviousValue) hform :).trans keeps
  have hdefault : (w.withTerms ts).prepare.defaultValue = v.defaultValue :=
    (congrArg (fun u : OutputVariable Float => u.defaultValue) hform :)
  have hmemory : (w.withTerms ts).prepare.previousValue = (lastNumber? xs).getD nan := h.memory
  -- a number that is kept lies in the range already, the default value is brought there
  show (w.withTerms ts).prepare.settleValue (w.withTerms ts).prepare.idleValue = _
  rw [settleValue_eq_of_form hform, idleValue_of_keeps hkeeps, hmemory, hdefault]
  cases hlast : lastNumber? xs with
  | none => rfl
  | some y =>
    rw [Option.getD_some, isNaN_of_lastNumber? hlast]
    exact h.settled y hlast

end OutputVariable

/-! ## §4 Sessions -/

namespace Engine

/-- Every cycle of the session is completed. -/
def Completes (e : Engine Float) : List Use → Prop
  | [] => True
  | u :: us => (u = .cycle → e.process.error = none) ∧ (e.use u).Completes us

/-- The values that an output has had after the cycles since the last restart: those that are given, followed by
those of the session. -/
def valuesAfter (i : Nat) (e : Engine Float) (xs : List Float) : List Use → List Float
  | [] => xs
  | .set key x :: us => valuesAfter i (e.use (.set key x)) xs us
  | .cycle :: us =>
    valuesAfter i (e.use .cycle) (xs ++ ((e.use .cycle).outputs[i]?.map fun v => v.value).toList) us
  | .restart :: us => valuesAfter i (e.use .restart) [] us

theorem outputs_use_set (e : Engine Float) (key : Key) (x : Float) :
    (e.use (.set key x)).outputs = e.outputs := by
  rcases use_set e key x with huse | ⟨id, huse⟩
  · rw [huse]
  · rw [huse]
    rfl

theorem session_append (e : Engine Float) (us vs : List Use) :
    e.session (us ++ vs) = (e.session us).session vs := List.foldl_append

theorem completes_append {e : Engine Float} {us vs : List Use} :
    e.Completes (us ++ vs) ↔ e.Completes us ∧ (e.session us).Completes vs := by
  induction us generalizing e with
  | nil => exact ⟨fun h => ⟨trivial, h⟩, And.right⟩
  | cons u us ih =>
    rw [List.cons_append, Completes, ih, ← and_assoc]
    rfl

/-- Through every session of which the cycles are completed, an output remembers the last number. -/
theorem remembers_session {i : Nat} {v : OutputVariable Float} (ordered : v.IsOrdered) {e : Engine Float}
    {xs : List Float} {w : OutputVariable Float} (hw : e.outputs[i]? = some w)
    (h : OutputVariable.Remembers v w xs) {us : List Use} (completes : e.Completes us) :
    ∃ u, (e.session us).outputs[i]? = some u ∧ OutputVariable.Remembers v u (e.valuesAfter i xs us) := by
  -- by induction on the uses, with what is remembered so far
  induction us generalizing e w xs with
  | nil => exact ⟨w, hw, h⟩
  | cons use us ih =>
    obtain ⟨hdone, hrest⟩ := completes
    cases use with
    | set key x =>
      refine ih ?_ h hrest
      rw [outputs_use_set]
      exact hw
    | cycle =>
      obtain ⟨ts, around, u, hdefuzzify, hu⟩ := exists_defuzzify_process (hdone rfl) hw
      obtain ⟨hremembers, -⟩ := h.defuzzify ordered hdefuzzify
      have hvalues : (((e.use .cycle).outputs[i]?).map fun v => v.value).toList = [u.value] := by
        rw [show (e.use .cycle).outputs[i]? = some u from hu]
        rfl
      rw [session_cons, valuesAfter, hvalues]
      exact ih hu hremembers hrest
    | restart =>
      have hclear : (e.use .restart).outputs[i]? = some w.clear := by
        rw [show (e.use .restart).outputs = e.outputs.map OutputVariable.clear from rfl, List.getElem?_map, hw]
        rfl
      exact ih hclear (OutputVariable.remembers_nil h.form ⟨rfl, rfl⟩) hrest

/-- After a completed cycle, the previous value of an output that keeps it is the last number that it had after an
earlier cycle, and so is its value when no rule reached it in this cycle. The default value, brought into the
range where it is locked, stands in for a number that is missing. -/
theorem previousValue_session {e : Engine Float} {i : Nat} {v : OutputVariable Float}
    (hv : e.outputs[i]? = some v) (fresh : v.IsUnvalued) (keeps : v.lockPreviousValue = true)
    (ordered : v.IsOrdered) {us : List Use} (completes : e.Completes (us ++ [.cycle])) :
    ∃ w, (e.session (us ++ [.cycle])).outputs[i]? = some w ∧
      w.previousValue = (lastNumber? (e.valuesAfter i [] us)).getD nan ∧
      (w.isActive = false →
        w.value = (lastNumber? (e.valuesAfter i [] us)).getD (v.settleValue v.defaultValue)) := by
  obtain ⟨hearlier, hlast⟩ := completes_append.1 completes
  obtain ⟨u, hu, hremembers⟩ := remembers_session ordered hv (OutputVariable.remembers_nil rfl fresh) hearlier
  obtain ⟨ts, around, w, hdefuzzify, hw⟩ := exists_defuzzify_process (hlast.1 rfl) hu
  refine ⟨w, ?_, (hremembers.defuzzify ordered hdefuzzify).2, hremembers.value_of_silent keeps hdefuzzify⟩
  rw [session_append]
  exact hw

/-- An output like the one of the relay that keeps its previous value, and has none yet. -/
def keepingOutput : OutputVariable Float :=
  { relayOutput with value := nan, previousValue := nan, lockPreviousValue := true }

/-- A relay that reaches its output only while its input is low. -/
def keepingRelay : Engine Float :=
  { relay with
    store := ⟨[{ Variable.empty "x" 0.0 1.0 with
      terms := [⟨0, "DARK", .shape (.rectangle 0.0 0.5) 1.0⟩], nextTerm := 1 }], [keepingOutput], [], [], 2⟩
    blocks := [relayBlock "dark" ⟨⟨0, "x", false⟩, [], some ⟨0, "DARK"⟩⟩ (relayProposition [] 0 "LOW")] }

/-- The first cycle takes the default value, the second one is reached by the rule, and the last one, which is
not, keeps what the second one computed. -/
theorem previousValue_session_keepingRelay :
    let us : List Use := [.cycle, .set (.name "x") 0.25, .cycle, .set (.name "x") 0.75]
    (keepingRelay.Completes (us ++ [.cycle]) ∧ keepingRelay.valuesAfter 0 [] us = [0.0, 0.25]) ∧
    ∃ w, (keepingRelay.session (us ++ [.cycle])).outputs[0]? = some w ∧
      w.previousValue = (lastNumber? (keepingRelay.valuesAfter 0 [] us)).getD nan ∧
      (w.isActive = false → w.value = (lastNumber? (keepingRelay.valuesAfter 0 [] us)).getD
        (keepingOutput.settleValue keepingOutput.defaultValue)) := by
  have completes : keepingRelay.Completes
      [.cycle, .set (.name "x") 0.25, .cycle, .set (.name "x") 0.75, .cycle] :=
    ⟨fun _ => by decide +kernel, nofun, fun _ => by decide +kernel, nofun, fun _ => by decide +kernel, trivial⟩
  exact ⟨⟨completes, by decide +kernel⟩,
    previousValue_session (v := keepingOutput) rfl ⟨rfl, rfl⟩ rfl nofun completes⟩

end Engine

end FuzzyInference
