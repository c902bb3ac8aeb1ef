import FuzzyInference.Proofs.Value
import FuzzyInference.Term.Shape

/-!
# Segments

Where a discrete shape interpolates, a halving search picks the segment. The search looks at few places only, so
that on points out of order it does not find the first place that is beyond. What it finds is still a crossing: a
place that is beyond next to one that is not. This is all that interpolation needs.

The plan of this module:

* the halving search on any places;
* the segment that interpolation uses.

## Main statements

* `isCrossing_bisect`: the search stops at a crossing
* `exists_isSegment`: between the first and the last point there is a segment around every value
-/

namespace FuzzyInference

open Scalar

namespace Shape

/-! ## §1 Halving search -/

/-- A place between the bounds from which on something holds that does not hold before it, at the place itself and
right before it. -/
structure IsCrossing (beyond : Nat → Bool) (lo hi r : Nat) : Prop where
  lower_le : lo ≤ r
  le_upper : r ≤ hi
  before : lo < r → beyond (r - 1) = false
  here : r < hi → beyond r = true

/-- The search stops at a crossing, whatever the order of the places. -/
theorem isCrossing_bisect (beyond : Nat → Bool) {lo hi : Nat} (h : lo ≤ hi) :
    IsCrossing beyond lo hi (bisect beyond lo hi) := by
  fun_induction bisect beyond lo hi with
  | case1 lo hi hlt mid hbeyond ih =>
    -- the middle is beyond, and becomes the upper bound
    have hmid : lo ≤ mid ∧ mid < hi := by omega
    have hcrossing := ih hmid.1
    refine ⟨hcrossing.lower_le, Nat.le_trans hcrossing.le_upper (Nat.le_of_lt hmid.2), hcrossing.before, fun _ => ?_⟩
    obtain hless | heq := Nat.lt_or_eq_of_le hcrossing.le_upper
    · exact hcrossing.here hless
    · rw [heq]
      exact hbeyond
  | case2 lo hi hlt mid hbeyond ih =>
    -- the middle is not beyond, and what follows it becomes the lower bound
    have hmid : lo ≤ mid ∧ mid + 1 ≤ hi := by omega
    have hcrossing := ih hmid.2
    have hlower := hcrossing.lower_le
    refine ⟨by omega, hcrossing.le_upper, fun _ => ?_, hcrossing.here⟩
    obtain hless | heq := Nat.lt_or_eq_of_le hcrossing.lower_le
    · exact hcrossing.before hless
    · rw [← heq, Nat.add_sub_cancel]
      exact Bool.eq_false_iff.2 hbeyond
  | case3 lo hi hge => exact ⟨Nat.le_refl lo, h, fun hlt => absurd hlt (Nat.lt_irrefl lo), fun hlt => absurd hlt hge⟩

/-! ## §2 Interpolation -/

variable {α : Type} [Scalar α]

/-- The index of the point at which the segment ends that interpolation uses. -/
def upper (points : List (α × α)) (x : α) : Nat :=
  bisect (fun i => decide (x < (points.map Prod.fst).getD i nan)) 0 points.length

/-- The segment that interpolation uses goes from one point to the next one in the list, and `x` is below the
second one but not below the first. -/
structure IsSegment (points : List (α × α)) (x : α) (p q : α × α) : Prop where
  start : points[upper points x - 1]? = some p
  stop : points[upper points x]? = some q
  upper_pos : 0 < upper points x
  start_le : ¬x < p.1
  lt_stop : x < q.1

theorem IsSegment.interpolate {points : List (α × α)} {x : α} {p q : α × α} (h : IsSegment points x p q) :
    interpolate points x = rescale x p.1 q.1 p.2 q.2 := by
  have hstart := h.start
  have hstop := h.stop
  unfold upper at hstart hstop
  simp only [Shape.interpolate, hstart, hstop]

/-- A value that is not below the first point but below the last one lies on a segment, also where points between
them are out of order or share their abscissas. -/
theorem exists_isSegment {points : List (α × α)} {x : α} {first last : α × α} (hfirst : points.head? = some first)
    (hlast : points.getLast? = some last) (hx : ¬x < first.1) (hx' : x < last.1) :
    ∃ p q, IsSegment points x p q := by
  have hcrossing := isCrossing_bisect (fun i => decide (x < (points.map Prod.fst).getD i nan))
    (Nat.zero_le points.length)
  have hupper : bisect (fun i => decide (x < (points.map Prod.fst).getD i nan)) 0 points.length =
      upper points x := rfl
  rw [hupper] at hcrossing
  rw [List.head?_eq_getElem?] at hfirst
  rw [List.getLast?_eq_getElem?] at hlast
  have habscissa : ∀ {i : Nat} {p : α × α}, points[i]? = some p → (points.map Prod.fst).getD i nan = p.1 := by
    intro i p h
    rw [List.getD_eq_getElem?_getD, List.getElem?_map, h]
    rfl
  have hlength : 0 < points.length := (List.getElem?_eq_some_iff.1 hfirst).1
  have hpos : 0 < upper points x := by
    refine Nat.pos_of_ne_zero fun hzero => ?_
    have hhere := hcrossing.here (hzero ▸ hlength)
    rw [hzero, habscissa hfirst] at hhere
    exact hx (of_decide_eq_true hhere)
  have hlt : upper points x < points.length := by
    refine Nat.lt_of_le_of_ne hcrossing.le_upper fun heq => ?_
    have hbefore := hcrossing.before hpos
    rw [heq, habscissa hlast] at hbefore
    exact of_decide_eq_false hbefore hx'
  have hstart : points[upper points x - 1]? = some points[upper points x - 1] := List.getElem?_eq_getElem _
  have hstop : points[upper points x]? = some points[upper points x] := List.getElem?_eq_getElem hlt
  have hbefore := hcrossing.before hpos
  have hhere := hcrossing.here hlt
  rw [habscissa hstart] at hbefore
  rw [habscissa hstop] at hhere
  exact ⟨_, _, hstart, hstop, hpos, of_decide_eq_false hbefore, of_decide_eq_true hhere⟩

end Shape

end FuzzyInference
