import FuzzyInference.Proofs.Dangling

/-!
# Names of terms

A variable takes a term only if none of its terms has the name, so that a text names at most one term of a
variable. This holds of every variable that is put together from terms, in whatever order they come and go, and so
of all variables of an engine: whatever is done to an engine, its variables are taken over or get their terms one
by one.

The plan of this module:

* the terms of one variable;
* the variables of an engine that edits change;
* engines that documents describe.

## Main statements

* `Variable.termsDiffer_putTerm`, `Variable.termsDiffer_dropTerm`: what changes the terms of a variable
* `Engine.termsDiffer_edited`: what changes the variables of an engine
* `Engine.termsDiffer_assemble`: what a document describes
-/

namespace FuzzyInference

open Checked

/-! ## §1 Variables -/

namespace Variable

/-- A text names at most one term. -/
def TermsDiffer (v : Variable Float) : Prop := ∀ s : String, v.terms.countP (fun t => t.name == .text s) ≤ 1

variable {v w : Variable Float}

theorem termsDiffer_empty (name : Name) (minimum maximum : Float) :
    (Variable.empty name minimum maximum).TermsDiffer :=
  fun _ => Nat.zero_le 1

/-- Terms with different texts as names differ. -/
theorem termsDiffer_of_texts (names : List String) (h : v.terms.map Term.name = names.map .text)
    (hdistinct : names.Nodup) : v.TermsDiffer := by
  intro s
  have hcount : v.terms.countP (fun t => t.name == .text s) = names.count s := by
    have hname := congrArg (List.countP fun n : Name => n == .text s) h
    rw [List.countP_map, List.countP_map] at hname
    exact hname
  rw [hcount]
  exact List.nodup_iff_count_le_one.1 hdistinct s

/-- Some of the terms of a variable differ if all do. -/
theorem TermsDiffer.of_sublist (h : v.TermsDiffer) (hw : w.terms.Sublist v.terms) : w.TermsDiffer :=
  fun s => Nat.le_trans hw.countP_le (h s)

theorem termsDiffer_placeTerm {t : Term Float} {place : Term Float → List (Term Float) → List (Term Float)}
    (hplace : ∀ u us, (place u us).Perm (u :: us)) (hv : v.TermsDiffer) (h : v.placeTerm t place = .ok w) :
    w.TermsDiffer := by
  have hnew : v.hasTerm t.name = false := by
    unfold placeTerm at h
    split at h
    · obtain ⟨name, -, h⟩ := bind_eq_ok_iff.1 h
      obtain ⟨name', -, h⟩ := bind_eq_ok_iff.1 h
      cases h
    · rename_i hnot
      simpa using hnot
  rw [placeTerm_eq_ok h]
  intro s
  rw [(hplace _ v.terms).countP_eq, List.countP_cons]
  split
  · rename_i hname
    -- no other term has the name of the new one
    have heq : t.name = .text s := by
      cases hname' : t.name with
      | text s' =>
        simp only [hname', Name.text_beq_text, beq_iff_eq] at hname
        rw [hname]
      | other value => simp [hname'] at hname
    have hnone : v.terms.countP (fun u => u.name == .text s) = 0 := by
      rw [List.countP_eq_zero]
      intro u hu
      have hall := List.any_eq_false.1 hnew u hu
      rwa [heq] at hall
    omega
  · exact hv s

theorem termsDiffer_putTerm {t : Term Float} {place : Place} (hv : v.TermsDiffer)
    (h : v.putTerm t place = .ok w) : w.TermsDiffer := by
  cases place with
  | last => exact termsDiffer_placeTerm (fun u us => List.perm_append_singleton u us) hv h
  | before i =>
    obtain ⟨w', hw', h⟩ := bind_eq_ok_iff.1 h
    obtain ⟨_, -, h⟩ := bind_eq_ok_iff.1 h
    cases h
    exact termsDiffer_placeTerm (fun u us => Position.insert_perm us i u) hv hw'

theorem termsDiffer_dropTerm {key : Key} (hv : v.TermsDiffer) (h : v.dropTerm key = .ok w) : w.TermsDiffer := by
  cases ht : v.termOf key with
  | error err =>
    rw [dropTerm_error ht] at h
    cases h
  | ok t =>
    rw [dropTerm_eq ht] at h
    cases h
    exact hv.of_sublist List.filter_sublist

end Variable

/-! ## §2 Engines -/

/-- A variable that the edit adds has terms that differ. -/
def Edit.AddsDifferent : Edit → Prop
  | .addVariable v _ _ => v.base.TermsDiffer
  | _ => True

namespace Engine

/-- The terms of every variable differ. -/
def TermsDiffer (e : Engine Float) : Prop := ∀ v ∈ e.members, v.base.TermsDiffer

variable {e e' : Engine Float}

theorem termsDiffer_empty (name : Name) : (empty name : Engine Float).TermsDiffer :=
  fun _ hv => absurd hv List.not_mem_nil

theorem termsDiffer_of_store_eq (h : e.TermsDiffer) (hstore : e'.store = e.store) : e'.TermsDiffer := by
  rw [TermsDiffer, members_of_store_eq hstore]
  exact h

theorem termsDiffer_changeTerms {s : Selector} {f : Variable Float → Except Error (Variable Float)}
    (he : e.IsNumbered) (hf : ∀ v w : Variable Float, v.TermsDiffer → f v = .ok w → w.TermsDiffer)
    (h : e.TermsDiffer) (hchange : e.changeTerms s f = .ok e') : e'.TermsDiffer := by
  obtain ⟨v, hv, hchange⟩ := bind_eq_ok_iff.1 hchange
  obtain ⟨w, hw, hchange⟩ := bind_eq_ok_iff.1 hchange
  cases hchange
  obtain ⟨rest, hbefore, hafter⟩ := perm_modifyVariable he (mem_of_select hv) w
  intro u hu
  rcases List.mem_cons.1 (hafter.mem_iff.1 hu) with rfl | hu
  · rw [AnyVariable.base_withBase]
    exact hf v.base w (h v (mem_of_select hv)) hw
  · exact h u (hbefore.mem_iff.2 (List.mem_cons_of_mem _ hu))

theorem termsDiffer_putVariable {v : AnyVariable Float} {place : Place} (hv : v.base.TermsDiffer)
    (h : e.TermsDiffer) (hput : e.putVariable v place = .ok e') : e'.TermsDiffer := by
  intro u hu
  rcases List.mem_cons.1 ((perm_putVariable hput).1.mem_iff.1 hu) with rfl | hu
  · rw [numberedNext, AnyVariable.base_withBase]
    exact hv
  · exact h u hu

theorem termsDiffer_dropVariable {s : Selector} (h : e.TermsDiffer) (hdrop : e.dropVariable s = .ok e') :
    e'.TermsDiffer := by
  obtain ⟨v, hv⟩ := exists_select_of_dropVariable hdrop
  obtain ⟨e'', hdrop', hmembers, -⟩ := perm_dropVariable hv
  cases hdrop.symm.trans hdrop'
  exact fun u hu => h u (hmembers.mem_iff.2 (List.mem_cons_of_mem _ hu))

theorem termsDiffer_edit (he : e.IsNumbered) (h : e.TermsDiffer) {d : Edit} (hd : d.AddsDifferent) :
    (e.edit d).TermsDiffer := by
  cases hattempt : e.attempt d with
  | error err =>
    rw [edit_of_error hattempt]
    exact h
  | ok e' =>
    cases d with
    | addVariable v hv place =>
      rw [edit_of_ok hattempt]
      exact termsDiffer_putVariable hd h hattempt
    | removeVariable s =>
      rw [edit_of_ok hattempt]
      exact termsDiffer_dropVariable h hattempt
    | addTerm s t place =>
      rw [edit_of_ok hattempt]
      exact termsDiffer_changeTerms he (fun _ _ hv => Variable.termsDiffer_putTerm hv) h hattempt
    | removeTerm s key =>
      rw [edit_of_ok hattempt]
      exact termsDiffer_changeTerms he (fun _ _ hv => Variable.termsDiffer_dropTerm hv) h hattempt
    | _ => exact termsDiffer_of_store_eq h (store_edit_of_rules e rfl)

/-- Edits keep the names of the terms apart. -/
theorem termsDiffer_edited (he : e.IsNumbered) (h : e.TermsDiffer) {ds : List Edit}
    (hds : ∀ d ∈ ds, d.AddsDifferent) : (e.edited ds).TermsDiffer := by
  induction ds generalizing e with
  | nil => exact h
  | cons d ds ih =>
    exact ih (isNumbered_edited he [d]) (termsDiffer_edit he h (hds d List.mem_cons_self))
      fun d' hd' => hds d' (List.mem_cons_of_mem _ hd')

end Engine

/-! ## §3 Documents -/

namespace Variable

theorem termsDiffer_addTables {r : TermRegistry} {v w : Variable Float} {ts : List Value} (hv : v.TermsDiffer)
    (h : v.addTables r ts = .ok w) : w.TermsDiffer := by
  induction ts generalizing v with
  | nil =>
    cases h
    exact hv
  | cons t ts ih =>
    obtain ⟨term, -, h⟩ := bind_eq_ok_iff.1 h
    obtain ⟨u, hu, h⟩ := bind_eq_ok_iff.1 h
    have hput : v.putTerm term .last = .ok u := hu
    exact ih (termsDiffer_putTerm hv hput) h

theorem termsDiffer_fill {r : TermRegistry} {v w : Variable Float} {t : Value} (hv : v.TermsDiffer)
    (h : v.fill r t = .ok w) : w.TermsDiffer :=
  termsDiffer_addTables (v := { v with
    enabled := t.entryFlag "enabled" true, lockValueInRange := t.entryFlag "lock_range" false }) hv h

theorem termsDiffer_ofTable {r : TermRegistry} {t : Value} {v : Variable Float} (h : ofTable r t = .ok v) :
    v.TermsDiffer := by
  obtain ⟨name, -, h⟩ := bind_eq_ok_iff.1 h
  obtain ⟨⟨minimum, maximum⟩, -, h⟩ := bind_eq_ok_iff.1 h
  obtain ⟨w, hw, h⟩ := bind_eq_ok_iff.1 h
  have hdiffer := termsDiffer_fill (termsDiffer_empty name minimum maximum) hw
  -- a value does not touch the terms
  split at h
  · obtain ⟨x, -, h⟩ := bind_eq_ok_iff.1 h
    cases h
    exact hdiffer
  · cases h
    exact hdiffer

end Variable

theorem OutputVariable.termsDiffer_ofTable {r : TermRegistry} {t : Value} {v : OutputVariable Float}
    (h : ofTable r t = .ok v) : v.toVariable.TermsDiffer := by
  simp only [ofTable, bind_eq_ok_iff] at h
  obtain ⟨name, -, ⟨minimum, maximum⟩, -, base, hbase, _, -, _, -, _, -, _, -, _, -, h⟩ := h
  cases h
  exact Variable.termsDiffer_fill (Variable.termsDiffer_empty name minimum maximum) hbase

namespace Engine

/-- The terms of every variable that a document describes differ. -/
theorem termsDiffer_assemble {r : TermRegistry} {doc : Value} {e : Engine Float} (h : assemble r doc = .ok e) :
    e.TermsDiffer := by
  obtain ⟨e₁, hinputs, h⟩ := bind_eq_ok_iff.1 h
  obtain ⟨e₂, houtputs, hblocks⟩ := bind_eq_ok_iff.1 h
  have hinput : ∀ (e : Engine Float) (t : Value) (e' : Engine Float), e.TermsDiffer →
      e.addInput <$> Variable.ofTable r t = .ok e' → e'.TermsDiffer := by
    intro e t e' he hstep
    obtain ⟨v, hv, hadd⟩ := map_eq_ok_iff.1 hstep
    have hput : e.putVariable (.input v) .last = .ok e' := congrArg Except.ok hadd
    exact termsDiffer_putVariable (Variable.termsDiffer_ofTable hv) he hput
  have houtput : ∀ (e : Engine Float) (t : Value) (e' : Engine Float), e.TermsDiffer →
      e.addOutput <$> OutputVariable.ofTable r t = .ok e' → e'.TermsDiffer := by
    intro e t e' he hstep
    obtain ⟨v, hv, hadd⟩ := map_eq_ok_iff.1 hstep
    have hput : e.putVariable (.output v) .last = .ok e' := congrArg Except.ok hadd
    have hdiffer : (AnyVariable.output v).base.TermsDiffer := OutputVariable.termsDiffer_ofTable hv
    exact termsDiffer_putVariable hdiffer he hput
  have hblock : ∀ (e : Engine Float) (t : Value) (e' : Engine Float), e.TermsDiffer →
      e.addBlock <$> RuleBlock.ofTable e.inventory t = .ok e' → e'.TermsDiffer := by
    intro e t e' he hstep
    obtain ⟨b, -, hadd⟩ := map_eq_ok_iff.1 hstep
    exact termsDiffer_of_store_eq he (congrArg Engine.store hadd).symm
  exact invariant_of_foldlM hblock
    (invariant_of_foldlM houtput (invariant_of_foldlM hinput (termsDiffer_empty _) hinputs) houtputs) hblocks

end Engine

end FuzzyInference
