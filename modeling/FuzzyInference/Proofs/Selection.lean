import FuzzyInference.Activation
import Mathlib.Data.List.Perm.Subperm

/-!
# What activation methods select

An activation method chooses among the rules of a block by their degrees. Whatever the method, it lets no
rule fire twice, and the degree with which a rule fires is the one it has, divided by the total of the block
where the method is proportional.

## Main statements

* `Activation.nodup_select`: no rule is selected twice
* `Activation.exists_of_mem_select`: a selected rule fires with its share
* `Activation.share_eq_of_not_selected`: a rule that is not selected keeps its degree
-/

namespace FuzzyInference

open Scalar

namespace Activation

variable {α ι : Type} [Scalar α]

/-! ## §1 Sorting -/

theorem insertByKey_perm (key : α × ι → α) (p : α × ι) (ps : List (α × ι)) :
    (insertByKey key p ps).Perm (p :: ps) := by
  induction ps with
  | nil => exact .refl _
  | cons q ps ih =>
    unfold insertByKey
    split
    · exact (ih.cons q).trans (.swap p q ps)
    · exact .refl _

/-- Sorting changes nothing but the order. -/
theorem sortByKey_perm (key : α × ι → α) (ps : List (α × ι)) : (sortByKey key ps).Perm ps := by
  induction ps with
  | nil => exact .refl _
  | cons p ps ih => exact (insertByKey_perm key p _).trans (ih.cons p)

/-! ## §2 Shares -/

/-- The degree with which a rule of a block takes part in the end. A proportional method divides positive
degrees by their total. -/
def share (m : Activation α) (ds : List (α × ι)) (d : α) : α :=
  match m with
  | proportional =>
    let total := sumOfDegrees (ds.filter fires)
    if above d 0.0 && above total 0.0 then d / total else d
  | _ => d

/-- A method that is not proportional selects some of the degrees as they are, up to their order. -/
theorem select_subperm (m : Activation α) (ds : List (α × ι)) :
    m = proportional ∨ ((m.select ds).Subperm ds ∧ ∀ d, m.share ds d = d) := by
  -- a proportional method changes the degrees, every other one filters, sorts, reverses or cuts the list
  cases m with
  | proportional => exact .inl rfl
  | general => exact .inr ⟨List.filter_sublist.subperm, fun d => rfl⟩
  | first count bar =>
    exact .inr ⟨((List.take_sublist _ _).trans List.filter_sublist).subperm, fun d => rfl⟩
  | last count bar =>
    have h : (select (last count bar) ds).Sublist ds.reverse :=
      (List.take_sublist _ _).trans List.filter_sublist
    exact .inr ⟨h.subperm.trans (List.reverse_perm ds).subperm, fun d => rfl⟩
  | highest count =>
    have h : (select (highest count) ds).Sublist (sortByKey (fun p => -p.1) (ds.filter fires)) :=
      List.take_sublist _ _
    refine .inr ⟨h.subperm.trans ((sortByKey_perm _ _).subperm.trans ?_), fun d => rfl⟩
    exact List.filter_sublist.subperm
  | lowest count =>
    have h : (select (lowest count) ds).Sublist (sortByKey (fun p => p.1) (ds.filter fires)) :=
      List.take_sublist _ _
    refine .inr ⟨h.subperm.trans ((sortByKey_perm _ _).subperm.trans ?_), fun d => rfl⟩
    exact List.filter_sublist.subperm
  | threshold comparison value => exact .inr ⟨List.filter_sublist.subperm, fun d => rfl⟩

/-- The positive degrees, each divided by their total, unless it is too small. -/
theorem select_proportional (ds : List (α × ι)) :
    (proportional : Activation α).select ds =
      if above (sumOfDegrees (ds.filter fires)) 0.0 then
        (ds.filter fires).map fun p => (p.1 / sumOfDegrees (ds.filter fires), p.2)
      else [] := rfl

/-! ## §3 Selected rules -/

/-- No rule is selected twice. -/
theorem nodup_select (m : Activation α) {ds : List (α × ι)} (h : (ds.map Prod.snd).Nodup) :
    ((m.select ds).map Prod.snd).Nodup := by
  rcases select_subperm m ds with rfl | ⟨hsub, -⟩
  · rw [select_proportional]
    split
    · rw [List.map_map]
      exact h.sublist (List.filter_sublist.map Prod.snd)
    · exact List.nodup_nil
  -- a sublist up to order has no index twice that the list has once
  · obtain ⟨es, hperm, hsub⟩ := hsub
    exact ((hperm.map Prod.snd).nodup_iff).1 (h.sublist (hsub.map Prod.snd))

/-- A selected rule is one of those that were evaluated, and fires with its share. -/
theorem exists_of_mem_select {m : Activation α} {ds : List (α × ι)} {p : α × ι}
    (h : p ∈ m.select ds) : ∃ d, (d, p.2) ∈ ds ∧ p.1 = m.share ds d := by
  rcases select_subperm m ds with rfl | ⟨hsub, hshare⟩
  · rw [select_proportional] at h
    split at h
    next htotal =>
      obtain ⟨q, hq, rfl⟩ := List.mem_map.1 h
      obtain ⟨hq, hfires⟩ := List.mem_filter.1 hq
      have hpositive : above q.1 0.0 = true := hfires
      exact ⟨q.1, hq, by simp [share, hpositive, htotal]⟩
    next => cases h
  · exact ⟨p.1, hsub.subset h, (hshare p.1).symm⟩

/-- A rule that is not selected keeps its degree. -/
theorem share_eq_of_not_selected {m : Activation α} {ds : List (α × ι)} {d : α} {i : ι}
    (hmem : (d, i) ∈ ds) (h : ∀ p ∈ m.select ds, p.2 ≠ i) : m.share ds d = d := by
  rcases select_subperm m ds with rfl | ⟨-, hshare⟩
  · cases hd : above d 0.0 with
    | false => simp [share, hd]
    | true =>
      cases htotal : above (sumOfDegrees (ds.filter fires)) 0.0 with
      | false => simp [share, htotal]
      | true =>
        rw [select_proportional, if_pos htotal] at h
        have hfires : (d, i) ∈ ds.filter fires := List.mem_filter.2 ⟨hmem, hd⟩
        exact absurd rfl (h _ (List.mem_map.2 ⟨_, hfires, rfl⟩))
  · exact hshare d

end Activation

end FuzzyInference
