import FuzzyInference.Proofs.Exact.Scalars
import FuzzyInference.Proofs.Segments
import FuzzyInference.Term.Basic

/-!
# Polylines

A discrete shape over real points has a degree at every real number, in whatever order the points stand: the segment
that interpolation uses starts at the number or before it and ends behind it, so that it is not upright. On points in
increasing order the degree is on the line between the neighbours of the number, times the height.

The ends are compared with tolerance. Up to the tolerance behind the first point the degree is that of the first
point; from the tolerance before the last point on it is that of the last point.

The plan of this module:

* chords and their heights;
* the degree at the ends and between them;
* points in increasing order.

## Main statements

* `Shape.degree_polyline_between`: the degree between the ends, for points in any order
* `Term.membership_polyline`: the degree everywhere
-/

namespace FuzzyInference

open Scalar Exact Checked

/-! ## §1 Chords -/

/-- The height at `x` of the line through two points. -/
noncomputable def chord (p q : ℝ × ℝ) (x : ℝ) : ℝ := (q.2 - p.2) / (q.1 - p.1) * (x - p.1) + p.2

section Chord

variable {p q : ℝ × ℝ}

theorem chord_start (p q : ℝ × ℝ) : chord p q p.1 = p.2 := by
  rw [chord, sub_self, mul_zero, zero_add]

theorem chord_stop (h : p.1 < q.1) : chord p q q.1 = q.2 := by
  rw [chord, div_mul_cancel₀ _ (sub_pos.2 h).ne', sub_add_cancel]

/-- Between two points the line through them is between their heights. -/
theorem chord_mem {x : ℝ} (hstart : p.1 ≤ x) (hstop : x < q.1) : chord p q x ∈ Set.uIcc p.2 q.2 := by
  have hwidth : 0 < q.1 - p.1 := by linarith
  -- the share of the way from the one point to the other
  obtain ⟨share, hshare⟩ : ∃ r, r = (x - p.1) / (q.1 - p.1) := ⟨_, rfl⟩
  have hnonneg : 0 ≤ share := hshare ▸ div_nonneg (sub_nonneg.2 hstart) hwidth.le
  have hle : share ≤ 1 := by
    rw [hshare, div_le_one hwidth]
    linarith
  have hvalue : chord p q x = (1 - share) • p.2 + share • q.2 := by
    rw [chord, hshare, smul_eq_mul, smul_eq_mul]
    field_simp
    ring
  rw [hvalue, ← segment_eq_uIcc]
  exact ⟨1 - share, share, sub_nonneg.2 hle, hnonneg, sub_add_cancel 1 share, rfl⟩

/-- The same of the line scaled by a height. -/
theorem mul_chord_mem {x : ℝ} (height : ℝ) (hstart : p.1 ≤ x) (hstop : x < q.1) :
    height * chord p q x ∈ Set.uIcc (height * p.2) (height * q.2) := by
  rw [← Set.image_const_mul_uIcc]
  exact Set.mem_image_of_mem _ (chord_mem hstart hstop)

end Chord

/-! ## §2 Degrees -/

namespace Shape

/-- The discrete shape over real points. -/
noncomputable def polyline (points : List (ℝ × ℝ)) : Shape Exact :=
  .discrete (points.map (Prod.map finite finite))

/-- The index of the point at which the segment ends that interpolation uses. -/
noncomputable def upperReal (points : List (ℝ × ℝ)) (x : ℝ) : Nat :=
  upper (points.map (Prod.map finite finite)) (finite x)

section Degrees

variable {points : List (ℝ × ℝ)} {first last : ℝ × ℝ} {height x : ℝ}

theorem isBlank_polyline (hfirst : points.head? = some first) : (polyline points).isBlank = false := by
  cases points with
  | nil => cases hfirst
  | cons p points => rfl

theorem degree_polyline (hfirst : points.head? = some first) (hlast : points.getLast? = some last) :
    (polyline points).degree (finite height) (finite x) =
      if x < first.1 + epsilon then .ok (finite (height * first.2))
      else if last.1 < x + epsilon then .ok (finite (height * last.2))
      else do return finite height * (← interpolate (points.map (Prod.map finite finite)) (finite x)) := by
  simp only [polyline, degree, List.head?_map, List.getLast?_map, hfirst, hlast, Option.map_some, Prod.map,
    atMost_finite, atLeast_finite, decide_eq_true_eq, finite_mul]

/-- Up to the tolerance behind the first point, the degree is that of the first point. -/
theorem degree_polyline_first (hfirst : points.head? = some first) (hlast : points.getLast? = some last)
    (hx : x < first.1 + epsilon) :
    (polyline points).degree (finite height) (finite x) = .ok (finite (height * first.2)) := by
  rw [degree_polyline hfirst hlast, if_pos hx]

/-- From the tolerance before the last point on, the degree is that of the last point. -/
theorem degree_polyline_last (hfirst : points.head? = some first) (hlast : points.getLast? = some last)
    (hx : first.1 + epsilon ≤ x) (hx' : last.1 < x + epsilon) :
    (polyline points).degree (finite height) (finite x) = .ok (finite (height * last.2)) := by
  rw [degree_polyline hfirst hlast, if_neg (not_lt.2 hx), if_pos hx']

/-- Between the ends, the degree is on the segment that interpolation uses. -/
theorem degree_polyline_between (hfirst : points.head? = some first) (hlast : points.getLast? = some last)
    (hx : first.1 + epsilon ≤ x) (hx' : x + epsilon ≤ last.1) :
    ∃ i p q, i + 1 = upperReal points x ∧ points[i]? = some p ∧ points[i + 1]? = some q ∧ p.1 ≤ x ∧ x < q.1 ∧
      ∀ height : ℝ, (polyline points).degree (finite height) (finite x) = .ok (finite (height * chord p q x)) := by
  have hpos := epsilon_pos
  have hbeyond : ¬finite x < finite first.1 := not_lt.2 (by linarith : first.1 ≤ x)
  have hbefore : finite x < finite last.1 := finite_lt_finite.2 (by linarith)
  have hhead : (points.map (Prod.map finite finite)).head? = some (first.map finite finite) := by
    rw [List.head?_map, hfirst, Option.map_some]
  have hback : (points.map (Prod.map finite finite)).getLast? = some (last.map finite finite) := by
    rw [List.getLast?_map, hlast, Option.map_some]
  obtain ⟨p', q', hsegment⟩ := exists_isSegment hhead hback hbeyond hbefore
  have hupper : upper (points.map (Prod.map finite finite)) (finite x) = upperReal points x := rfl
  have hstart := hsegment.start
  have hstop := hsegment.stop
  rw [hupper, List.getElem?_map, Option.map_eq_some_iff] at hstart hstop
  obtain ⟨p, hp, rfl⟩ := hstart
  obtain ⟨q, hq, rfl⟩ := hstop
  have hindex : upperReal points x - 1 + 1 = upperReal points x := Nat.sub_add_cancel hsegment.upper_pos
  have hle : p.1 ≤ x := not_lt.1 hsegment.start_le
  have hlt : x < q.1 := hsegment.lt_stop
  have hwidth : q.1 - p.1 ≠ 0 := by linarith
  refine ⟨_, p, q, hindex, hp, by rw [hindex, hq], hle, hlt, fun height => ?_⟩
  rw [degree_polyline hfirst hlast, if_neg (not_lt.2 hx), if_neg (not_lt.2 hx'), hsegment.interpolate]
  simp only [rescale, Prod.map, finite_sub, divide_finite hwidth, ok_bind, pure_eq_ok, finite_mul, finite_add, chord]

end Degrees

/-! ## §3 Points in increasing order -/

/-- Two neighbours in the list, with `x` between them. -/
structure Encloses (points : List (ℝ × ℝ)) (i : Nat) (p q : ℝ × ℝ) (x : ℝ) : Prop where
  start : points[i]? = some p
  stop : points[i + 1]? = some q
  start_le : p.1 ≤ x
  le_stop : x ≤ q.1

section Increasing

variable {points : List (ℝ × ℝ)} {x : ℝ} {i j : Nat} {p q p' q' : ℝ × ℝ}

theorem abscissa_lt (h : points.Pairwise fun p q => p.1 < q.1) (hi : points[i]? = some p) (hj : points[j]? = some q)
    (hij : i < j) : p.1 < q.1 := by
  obtain ⟨hilt, rfl⟩ := List.getElem?_eq_some_iff.1 hi
  obtain ⟨hjlt, rfl⟩ := List.getElem?_eq_some_iff.1 hj
  exact List.pairwise_iff_getElem.1 h i j hilt hjlt hij

theorem abscissa_le (h : points.Pairwise fun p q => p.1 < q.1) (hi : points[i]? = some p) (hj : points[j]? = some q)
    (hij : i ≤ j) : p.1 ≤ q.1 := by
  obtain rfl | hlt := hij.eq_or_lt
  · rw [Option.some.inj (hi.symm.trans hj)]
  · exact (abscissa_lt h hi hj hlt).le

/-- Neighbours that enclose the same number lie on lines of the same height there. -/
theorem Encloses.chord_eq (h : points.Pairwise fun p q => p.1 < q.1) (hp : Encloses points i p q x)
    (hp' : Encloses points j p' q' x) (hij : i ≤ j) : chord p q x = chord p' q' x := by
  obtain rfl | hlt := hij.eq_or_lt
  · rw [Option.some.inj (hp.start.symm.trans hp'.start), Option.some.inj (hp.stop.symm.trans hp'.stop)]
  · -- the pairs share a point, and the number is its abscissa
    have hle := abscissa_le h hp.stop hp'.start hlt
    have hq : q.1 = x := le_antisymm (hle.trans hp'.start_le) hp.le_stop
    have hp'x : p'.1 = x := le_antisymm hp'.start_le (hp.le_stop.trans hle)
    have hindex : i + 1 = j := by
      refine (Nat.succ_le_of_lt hlt).eq_or_lt.resolve_right fun hless => ?_
      have := abscissa_lt h hp.stop hp'.start hless
      linarith
    subst hindex
    have hshared : q = p' := Option.some.inj (hp.stop.symm.trans hp'.start)
    have hwidth : p.1 < q.1 := abscissa_lt h hp.start hp.stop (Nat.lt_succ_self i)
    calc chord p q x = chord p q q.1 := by rw [hq]
      _ = q.2 := chord_stop hwidth
      _ = p'.2 := by rw [hshared]
      _ = chord p' q' p'.1 := (chord_start p' q').symm
      _ = chord p' q' x := by rw [hp'x]

end Increasing

/-- On points in increasing order, the degree between the ends is on the line through the neighbours. -/
theorem degree_polyline_encloses {points : List (ℝ × ℝ)} {first last : ℝ × ℝ} {height x : ℝ}
    (hfirst : points.head? = some first) (hlast : points.getLast? = some last)
    (h : points.Pairwise fun p q => p.1 < q.1) (hx : first.1 + epsilon ≤ x) (hx' : x + epsilon ≤ last.1)
    {i : Nat} {p q : ℝ × ℝ} (hp : Encloses points i p q x) :
    (polyline points).degree (finite height) (finite x) = .ok (finite (height * chord p q x)) := by
  obtain ⟨j, p', q', -, hstart, hstop, hle, hlt, hdegree⟩ :=
    degree_polyline_between hfirst hlast hx hx'
  have hp' : Encloses points j p' q' x := ⟨hstart, hstop, hle, hlt.le⟩
  rw [hdegree]
  obtain hij | hji := le_total i j
  · rw [hp.chord_eq h hp' hij]
  · rw [hp'.chord_eq h hp hji]

/-- On points in increasing order, the degree at a point that is not near an end is that of the point. -/
theorem degree_polyline_point {points : List (ℝ × ℝ)} {first last : ℝ × ℝ} {height : ℝ}
    (hfirst : points.head? = some first) (hlast : points.getLast? = some last)
    (h : points.Pairwise fun p q => p.1 < q.1) {p : ℝ × ℝ} (hp : p ∈ points)
    (hx : epsilon ≤ |p.1 - first.1|) (hx' : epsilon ≤ |p.1 - last.1|) :
    (polyline points).degree (finite height) (finite p.1) = .ok (finite (height * p.2)) := by
  have hpos := epsilon_pos
  obtain ⟨i, hi⟩ := List.getElem?_of_mem hp
  have hlength : i < points.length := (List.getElem?_eq_some_iff.1 hi).1
  rw [List.head?_eq_getElem?] at hfirst
  have hstop := hlast
  rw [List.getLast?_eq_getElem?] at hstop
  have hlow := abscissa_le h hfirst hi (Nat.zero_le i)
  have hhigh := abscissa_le h hi hstop (by omega)
  rw [abs_of_nonneg (by linarith)] at hx
  rw [abs_of_nonpos (by linarith)] at hx'
  -- the point is not the last one, so that it has a neighbour
  have hnext : i + 1 < points.length := by
    by_contra hge
    have hindex : points.length - 1 = i := by omega
    rw [hindex, hi] at hstop
    rw [Option.some.inj hstop] at hx'
    linarith
  have hnext' : points[i + 1]? = some points[i + 1] := List.getElem?_eq_getElem hnext
  have hencloses : Encloses points i p points[i + 1] p.1 :=
    ⟨hi, hnext', le_rfl, (abscissa_lt h hi hnext' (Nat.lt_succ_self i)).le⟩
  rw [← List.head?_eq_getElem?] at hfirst
  rw [degree_polyline_encloses hfirst hlast h (by linarith) (by linarith) hencloses, chord_start]

end Shape

/-! ## §4 Terms -/

namespace Term

open Shape

theorem membership_of_shape {t : Term Exact} {s : Shape Exact} {height : ℝ} (ht : t.body = .shape s (finite height))
    (hblank : s.isBlank = false) (around : Option (Surroundings Exact)) (x : ℝ) :
    t.membership around (finite x) = liftM (s.degree (finite height) (finite x)) := by
  simp only [membership, ht, Shape.membership, isNaN_finite, hblank, Bool.false_eq_true, if_false]

/-- A term over real points, in any order and also with abscissas in common, has a degree at every real number. Near
the first point and before it, this is the degree of the first point, and else near the last point and behind it that
of the last point. Between the ends it is between the degrees of the points of the segment that is used, which starts
at the number or before it and ends behind it. If the points are in increasing order, it is on the line through the
neighbours of the number, and that of the point at every point that is not near an end. -/
theorem membership_polyline (t : Term Exact) {points : List (ℝ × ℝ)} {first last : ℝ × ℝ} {height : ℝ}
    (ht : t.body = .shape (polyline points) (finite height)) (hfirst : points.head? = some first)
    (hlast : points.getLast? = some last) (around : Option (Surroundings Exact)) (x : ℝ) :
    (∃ y, t.membership around (finite x) = .ok (finite y)) ∧
    (x < first.1 + epsilon → t.membership around (finite x) = .ok (finite (height * first.2))) ∧
    (first.1 + epsilon ≤ x → last.1 < x + epsilon →
      t.membership around (finite x) = .ok (finite (height * last.2))) ∧
    (first.1 + epsilon ≤ x → x + epsilon ≤ last.1 →
      ∃ i p q, i + 1 = upperReal points x ∧ points[i]? = some p ∧ points[i + 1]? = some q ∧ p.1 ≤ x ∧ x < q.1 ∧
        ∃ y ∈ Set.uIcc (height * p.2) (height * q.2), t.membership around (finite x) = .ok (finite y)) ∧
    ((points.Pairwise fun p q => p.1 < q.1) →
      (∀ i p q, Encloses points i p q x → first.1 + epsilon ≤ x → x + epsilon ≤ last.1 →
        t.membership around (finite x) = .ok (finite (height * chord p q x))) ∧
      ∀ p ∈ points, p.1 = x → epsilon ≤ |x - first.1| → epsilon ≤ |x - last.1| →
        t.membership around (finite x) = .ok (finite (height * p.2))) := by
  have hmembership := membership_of_shape ht (isBlank_polyline hfirst) around x
  have hstart : x < first.1 + epsilon → t.membership around (finite x) = .ok (finite (height * first.2)) := by
    intro hx
    rw [hmembership, degree_polyline_first hfirst hlast hx, liftM_ok]
  have hstop : first.1 + epsilon ≤ x → last.1 < x + epsilon →
      t.membership around (finite x) = .ok (finite (height * last.2)) := by
    intro hx hx'
    rw [hmembership, degree_polyline_last hfirst hlast hx hx', liftM_ok]
  have hbetween : first.1 + epsilon ≤ x → x + epsilon ≤ last.1 →
      ∃ i p q, i + 1 = upperReal points x ∧ points[i]? = some p ∧ points[i + 1]? = some q ∧ p.1 ≤ x ∧ x < q.1 ∧
        ∃ y ∈ Set.uIcc (height * p.2) (height * q.2), t.membership around (finite x) = .ok (finite y) := by
    intro hx hx'
    obtain ⟨i, p, q, hi, hp, hq, hle, hlt, hdegree⟩ := degree_polyline_between hfirst hlast hx hx'
    refine ⟨i, p, q, hi, hp, hq, hle, hlt, _, mul_chord_mem height hle hlt, ?_⟩
    rw [hmembership, hdegree, liftM_ok]
  refine ⟨?_, hstart, hstop, hbetween, fun hincreasing => ⟨fun i p q hp hx hx' => ?_, fun p hp heq hx hx' => ?_⟩⟩
  · obtain hx | hx := lt_or_ge x (first.1 + epsilon)
    · exact ⟨_, hstart hx⟩
    obtain hx' | hx' := lt_or_ge last.1 (x + epsilon)
    · exact ⟨_, hstop hx hx'⟩
    · obtain ⟨-, -, -, -, -, -, -, -, y, -, hy⟩ := hbetween hx hx'
      exact ⟨y, hy⟩
  · rw [hmembership, degree_polyline_encloses hfirst hlast hincreasing hx hx' hp, liftM_ok]
  · subst heq
    rw [hmembership, degree_polyline_point hfirst hlast hincreasing hp hx hx', liftM_ok]

/-- A term of the given shape. -/
noncomputable def ofShape (s : Shape Exact) (height : ℝ) : Term Exact := ⟨0, .text "term", .shape s (finite height)⟩

/-- A stroke from the origin upwards: halfway, and off both ends. -/
theorem membership_polyline_stroke :
    (ofShape (polyline [(0, 0), (1, 2)]) 1).membership none (finite (1 / 2)) = .ok (finite 1) ∧
    (ofShape (polyline [(0, 0), (1, 2)]) 1).membership none (finite (-1)) = .ok (finite 0) ∧
    (ofShape (polyline [(0, 0), (1, 2)]) 1).membership none (finite 3) = .ok (finite 2) := by
  have hpos := epsilon_pos
  have hsmall := epsilon_lt_half
  have hstroke := membership_polyline (ofShape (polyline [(0, 0), (1, 2)]) 1) rfl
    (rfl : _ = some ((0 : ℝ), (0 : ℝ))) (rfl : _ = some ((1 : ℝ), (2 : ℝ))) none
  refine ⟨?_, ?_, ?_⟩
  · have hencloses : Encloses [(0, 0), (1, 2)] 0 (0, 0) (1, 2) (1 / 2) := ⟨rfl, rfl, by norm_num, by norm_num⟩
    have hline := ((hstroke (1 / 2)).2.2.2.2 (by simp)).1 0 _ _ hencloses
      (by show (0 : ℝ) + epsilon ≤ 1 / 2; linarith) (by show 1 / 2 + epsilon ≤ (1 : ℝ); linarith)
    norm_num [chord] at hline
    exact hline
  · have hleft := (hstroke (-1)).2.1 (by show -1 < (0 : ℝ) + epsilon; linarith)
    rwa [mul_zero] at hleft
  · have hright := (hstroke 3).2.2.1 (by show (0 : ℝ) + epsilon ≤ 3; linarith)
      (by show (1 : ℝ) < 3 + epsilon; linarith)
    rwa [one_mul] at hright

/-- Points closer than the tolerance are not flat behind the last one: near the first point, the degree is that of the
first point. -/
theorem membership_polyline_close :
    ([(0, 0), (1 / 10000000000, 1)] : List (ℝ × ℝ)).Pairwise (fun p q => p.1 < q.1) ∧
    (1 / 10000000000 : ℝ) < 1 / 2000000000 ∧
    (ofShape (polyline [(0, 0), (1 / 10000000000, 1)]) 1).membership none (finite (1 / 2000000000)) = .ok (finite 0) ∧
    (ofShape (polyline [(0, 0), (1 / 10000000000, 1)]) 1).membership none (finite 1) = .ok (finite 1) := by
  have hpos := epsilon_pos
  have hsmall := epsilon_lt_half
  have hmembership : ∀ x, (ofShape (polyline [(0, 0), (1 / 10000000000, 1)]) 1).membership none (finite x) = _ :=
    membership_of_shape rfl rfl none
  refine ⟨by norm_num, by norm_num, ?_, ?_⟩
  · rw [hmembership, degree_polyline_first rfl rfl (by norm_num [epsilon]), liftM_ok, mul_zero]
  · have hstart : (0 : ℝ) + epsilon ≤ 1 := by linarith
    have hstop : (1 / 10000000000 : ℝ) < 1 + epsilon := by linarith
    rw [hmembership, degree_polyline_last rfl rfl hstart hstop, liftM_ok, one_mul]
    rfl

end Term

end FuzzyInference
