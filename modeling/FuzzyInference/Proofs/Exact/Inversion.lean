import FuzzyInference.Proofs.Exact.Scalars
import FuzzyInference.Proofs.Value
import FuzzyInference.Term.Basic

/-!
# Inversion

A monotonic shape names the crisp value of a degree. In exact arithmetic, going there and back is the identity for
the curve of height one: each branch of an inverse undoes the branch of the curve that the degree belongs to, and
the comparisons that choose the branches agree as long as neither the degree nor the crisp value lies where
comparison takes both sides of a branch for equal.

The height of a term scales its curve, but no inverse looks at it. Where an inverse leads, a term has the degree
times its height.

The plan of this module:

* the curves off their breakpoints;
* slopes, the monotonic shapes whose ends can be told apart, and where their inverses lead;
* the degree of a term at its inverse.

## Main statements

* `Shape.IsSlope.returns`: the degree of a shape at its inverse
* `Term.membership_invert`: a term has the degree it was inverted at exactly if its height is one
-/

namespace FuzzyInference

open Scalar Exact Checked

namespace Shape

/-! ## §1 Curves off their breakpoints -/

section Curves

variable {x start stop : ℝ}

/-- The first parabola of the s-curve and of the z-curve. -/
theorem curves_lower (hstart : start + epsilon ≤ x) (hmiddle : x < (start + stop) / 2) :
    sCurve (finite x) (finite start) (finite stop) = .ok (finite (2 * ((x - start) / (stop - start)) ^ 2)) ∧
    zCurve (finite x) (finite start) (finite stop) =
      .ok (finite (1 - 2 * ((x - start) / (stop - start)) ^ 2)) := by
  have hpos := epsilon_pos
  have hwidth : stop - start ≠ 0 := by linarith
  have hfar : ¬x < start + epsilon := not_lt.2 hstart
  have hlower : x < half * (start + stop) + epsilon := by
    rw [half_eq]
    linarith
  constructor
  · simp [sCurve, hfar, hlower, hwidth]
  · simp [zCurve, hfar, hlower, hwidth]

/-- The second parabola of the s-curve and of the z-curve. -/
theorem curves_upper (hmiddle : (start + stop) / 2 + epsilon ≤ x) (hstop : x + epsilon ≤ stop) :
    sCurve (finite x) (finite start) (finite stop) =
      .ok (finite (1 - 2 * ((x - stop) / (stop - start)) ^ 2)) ∧
    zCurve (finite x) (finite start) (finite stop) = .ok (finite (2 * ((x - stop) / (stop - start)) ^ 2)) := by
  have hpos := epsilon_pos
  have hwidth : stop - start ≠ 0 := by linarith
  have hfar : ¬x < start + epsilon := by linarith
  have hupper : ¬x < half * (start + stop) + epsilon := by
    rw [half_eq]
    linarith
  constructor
  · simp [sCurve, hfar, hupper, hstop, hwidth]
  · simp [zCurve, hfar, hupper, hstop, hwidth]

theorem logistic_finite {inflection slope : ℝ} (h : -slope * (x - inflection) ≤ 700) :
    logistic (finite x) (finite inflection) (finite slope) =
      .ok (finite (1 / (1 + Real.exp (-slope * (x - inflection))))) := by
  have hlimit : (exponentLimit : Exact) = finite 700 := by
    change finite (700.0 : ℝ) = finite 700
    norm_num
  have hneg : -finite slope = finite (-slope) := rfl
  have hdivisor : (1 : ℝ) + Real.exp (-slope * (x - inflection)) ≠ 0 := by positivity
  have hraised : ¬(700 : ℝ) < -slope * (x - inflection) := not_lt.2 h
  unfold logistic
  simp only [hneg, hlimit, finite_sub, finite_mul, finite_lt_finite, if_neg hraised, apply_exp_finite, ok_bind,
    literal_one, finite_add, divide_finite hdivisor]

end Curves

/-! ## §2 Slopes -/

/-- A monotonic shape with real parameters that rises or falls, and is no step, with the places at which its curve
changes from one branch to another. -/
inductive IsSlope : Shape Exact → List ℝ → Prop
  | ramp {start stop : ℝ} (h : epsilon ≤ |stop - start|) :
    IsSlope (.ramp (finite start) (finite stop)) [start, stop]
  | sShape {start stop : ℝ} (h : start < stop) :
    IsSlope (.sShape (finite start) (finite stop)) [start, (start + stop) / 2, stop]
  | zShape {start stop : ℝ} (h : start < stop) :
    IsSlope (.zShape (finite start) (finite stop)) [start, (start + stop) / 2, stop]
  | sigmoid {inflection slope : ℝ} (h : slope ≠ 0) :
    IsSlope (.sigmoid (finite inflection) (finite slope)) []
  | concave {inflection stop : ℝ} (h : epsilon ≤ |stop - inflection|) :
    IsSlope (.concave (finite inflection) (finite stop)) [stop]

/-- A degree that comparison can tell from the ends and from the middle of the unit interval. -/
structure IsInner (w : ℝ) : Prop where
  low : epsilon ≤ w
  high : w ≤ 1 - epsilon
  middle : epsilon ≤ |w - 1 / 2|

section Inverses

variable {w : ℝ}

theorem inUnitInterval_of_mem (hw : w ∈ Set.Icc (0 : ℝ) 1) : inUnitInterval (finite w) = true := by
  have hpos := epsilon_pos
  have hzero : (0 : ℝ) < w + epsilon := by linarith [hw.1]
  have hone : w < 1 + epsilon := by linarith [hw.2]
  simp [inUnitInterval, hzero, hone]

theorem IsInner.inUnitInterval (hw : IsInner w) : inUnitInterval (finite w) = true := by
  have hlow := hw.low
  have hhigh := hw.high
  have hpos := epsilon_pos
  exact inUnitInterval_of_mem ⟨by linarith, by linarith⟩

theorem IsInner.odds_pos (hw : IsInner w) : 0 < 1 / w - 1 := by
  have hpos := epsilon_pos
  have hlow := hw.low
  have hhigh := hw.high
  have hquotient : 1 < 1 / w := by
    rw [lt_div_iff₀ (by linarith)]
    linarith
  linarith

/-- An inner degree lies in one half of the unit interval, and comparison knows in which. -/
theorem IsInner.halves (hw : IsInner w) :
    (w < 1 / 2 ∧ w < half + epsilon ∧ ¬half < w + epsilon) ∨
    (1 / 2 < w ∧ ¬w < half + epsilon ∧ half < w + epsilon) := by
  have hpos := epsilon_pos
  rw [half_eq]
  rcases le_abs.1 hw.middle with hupper | hlower
  · refine .inr ⟨?_, ?_, ?_⟩ <;> linarith
  · refine .inl ⟨?_, ?_, ?_⟩ <;> linarith

/-- The root that an inverse takes of a degree below one half. -/
theorem exists_root (hlow : 0 < w) (hhigh : w < 1 / 2) :
    ∃ r, Scalar.apply .sqrt (finite (half * w)) = .ok (finite r) ∧ 0 < r ∧ r < 1 / 2 ∧ 2 * r ^ 2 = w := by
  have hradicand : 0 < half * w := by
    rw [half_eq]
    linarith
  have hsquare : Real.sqrt (half * w) ^ 2 = half * w := Real.sq_sqrt hradicand.le
  refine ⟨Real.sqrt (half * w), apply_sqrt_finite hradicand.le, Real.sqrt_pos.2 hradicand, ?_, ?_⟩
  · apply (Real.sqrt_lt' (by norm_num)).2
    rw [half_eq]
    linarith
  · rw [hsquare, half_eq]
    ring

/-- The crisp value at the given share of the width from the start lies on the first parabola, unless it is too
close to the start. -/
theorem curves_from_start {start stop r : ℝ} (hwidth : start < stop) (hr : 0 < r) (hr' : r < 1 / 2)
    (hclear : epsilon ≤ |start + (stop - start) * r - start|) :
    sCurve (finite (start + (stop - start) * r)) (finite start) (finite stop) = .ok (finite (2 * r ^ 2)) ∧
    zCurve (finite (start + (stop - start) * r)) (finite start) (finite stop) =
      .ok (finite (1 - 2 * r ^ 2)) := by
  have hdifference : 0 < stop - start := sub_pos.2 hwidth
  have hshare : (start + (stop - start) * r - start) / (stop - start) = r := by
    rw [add_sub_cancel_left, mul_div_cancel_left₀ r hdifference.ne']
  have hpositive : 0 < start + (stop - start) * r - start := by
    rw [add_sub_cancel_left]
    exact mul_pos hdifference hr
  rw [abs_of_pos hpositive] at hclear
  have hmiddle : start + (stop - start) * r < (start + stop) / 2 := by nlinarith
  have hcurves := @curves_lower (start + (stop - start) * r) start stop (by linarith) hmiddle
  rwa [hshare] at hcurves

/-- The crisp value at the given share of the width from the end lies on the second parabola, unless it is too
close to the middle or to the end. -/
theorem curves_from_stop {start stop r : ℝ} (hwidth : start < stop) (hr : 0 < r) (hr' : r < 1 / 2)
    (hmiddle : epsilon ≤ |stop - (stop - start) * r - (start + stop) / 2|)
    (hclear : epsilon ≤ |stop - (stop - start) * r - stop|) :
    sCurve (finite (stop - (stop - start) * r)) (finite start) (finite stop) =
      .ok (finite (1 - 2 * r ^ 2)) ∧
    zCurve (finite (stop - (stop - start) * r)) (finite start) (finite stop) = .ok (finite (2 * r ^ 2)) := by
  have hdifference : 0 < stop - start := sub_pos.2 hwidth
  have hshare : ((stop - (stop - start) * r - stop) / (stop - start)) ^ 2 = r ^ 2 := by
    rw [sub_sub_cancel_left, neg_div, neg_sq, mul_div_cancel_left₀ r hdifference.ne']
  have hnegative : stop - (stop - start) * r - stop < 0 := by
    rw [sub_sub_cancel_left]
    exact neg_neg_of_pos (mul_pos hdifference hr)
  have hbeyond : 0 < stop - (stop - start) * r - (start + stop) / 2 := by nlinarith
  rw [abs_of_neg hnegative] at hclear
  rw [abs_of_pos hbeyond] at hmiddle
  have hcurves := @curves_upper (stop - (stop - start) * r) start stop (by linarith) (by linarith)
  rwa [hshare] at hcurves

/-- The inverse of the degree is a real number, whatever the range. Off the breakpoints, the shape has the degree
there, times the height. -/
def Returns (s : Shape Exact) (breakpoints : List ℝ) (w : ℝ) : Prop :=
  ∀ (minimum maximum : Exact) (height : ℝ), ∃ z, s.inverse (finite w) minimum maximum = .ok (finite z) ∧
    ((∀ b ∈ breakpoints, epsilon ≤ |z - b|) → s.degree (finite height) (finite z) = .ok (finite (height * w)))

theorem returns_ramp {start stop : ℝ} (hw : IsInner w) (h : epsilon ≤ |stop - start|) :
    Returns (.ramp (finite start) (finite stop)) [start, stop] w := by
  intro minimum maximum height
  have hpos := epsilon_pos
  have hlow := hw.low
  have hhigh := hw.high
  refine ⟨(stop - start) * w + start, by simp [inverse, rescale], fun hclear => ?_⟩
  have hstart := hclear start (by simp)
  have hstop := hclear stop (by simp)
  have hapart : ¬|start - stop| < epsilon := by rwa [abs_sub_comm, not_lt]
  rcases le_abs.1 h with hrising | hfalling
  · have hwidth : stop - start ≠ 0 := by linarith
    have hbefore : 0 < (stop - start) * w := mul_pos (by linarith) (by linarith)
    have hbehind : 0 < (stop - start) * (1 - w) := mul_pos (by linarith) (by linarith)
    rw [abs_of_pos (by linarith)] at hstart
    rw [abs_of_neg (by linarith)] at hstop
    have hbelow : start + epsilon ≤ stop := by linarith
    have hmost : ¬(stop - start) * w + start < start + epsilon := by linarith
    have hleast : ¬stop < (stop - start) * w + start + epsilon := by linarith
    have hshare : height * ((stop - start) * w + start - start) = height * w * (stop - start) := by ring
    simp only [degree, near_finite, below_finite, atLeast_finite, atMost_finite, decide_eq_false hapart,
      decide_eq_true hbelow, decide_eq_false hleast, decide_eq_false hmost, Bool.false_eq_true, if_false, if_true,
      finite_sub, finite_mul, hshare, divide_finite hwidth, mul_div_cancel_right₀ _ hwidth]
  · have hwidth : start - stop ≠ 0 := by linarith
    have hbefore : (stop - start) * w < 0 := mul_neg_of_neg_of_pos (by linarith) (by linarith)
    have hbehind : (stop - start) * (1 - w) < 0 := mul_neg_of_neg_of_pos (by linarith) (by linarith)
    rw [abs_of_neg (by linarith)] at hstart
    rw [abs_of_pos (by linarith)] at hstop
    have hbelow : ¬start + epsilon ≤ stop := by linarith
    have hleast : ¬start < (stop - start) * w + start + epsilon := by linarith
    have hmost : ¬(stop - start) * w + start < stop + epsilon := by linarith
    have hshare : height * (start - ((stop - start) * w + start)) = height * w * (start - stop) := by ring
    simp only [degree, near_finite, below_finite, atLeast_finite, atMost_finite, decide_eq_false hapart,
      decide_eq_false hbelow, decide_eq_false hleast, decide_eq_false hmost, Bool.false_eq_true, if_false,
      finite_sub, finite_mul, hshare, divide_finite hwidth, mul_div_cancel_right₀ _ hwidth]

theorem returns_sShape {start stop : ℝ} (hw : IsInner w) (h : start < stop) :
    Returns (.sShape (finite start) (finite stop)) [start, (start + stop) / 2, stop] w := by
  intro minimum maximum height
  have hpos := epsilon_pos
  have hlow := hw.low
  have hhigh := hw.high
  have hunit := hw.inUnitInterval
  rcases hw.halves with ⟨hlower, hmost, -⟩ | ⟨hupper, hmost, -⟩
  · obtain ⟨r, hroot, hr, hr', hsquare⟩ := exists_root (w := w) (by linarith) hlower
    refine ⟨start + (stop - start) * r, by simp [inverse, hunit, hmost, hroot], fun hclear => ?_⟩
    obtain ⟨hcurve, -⟩ := curves_from_start h hr hr' (hclear start (by simp))
    simp [degree, hcurve, hsquare]
  · obtain ⟨r, hroot, hr, hr', hsquare⟩ := exists_root (w := 1 - w) (by linarith) (by linarith)
    refine ⟨stop - (stop - start) * r, by simp [inverse, hunit, hmost, hroot], fun hclear => ?_⟩
    obtain ⟨hcurve, -⟩ := curves_from_stop h hr hr' (hclear _ (by simp)) (hclear stop (by simp))
    simp [degree, hcurve, hsquare]

theorem returns_zShape {start stop : ℝ} (hw : IsInner w) (h : start < stop) :
    Returns (.zShape (finite start) (finite stop)) [start, (start + stop) / 2, stop] w := by
  intro minimum maximum height
  have hpos := epsilon_pos
  have hlow := hw.low
  have hhigh := hw.high
  have hunit := hw.inUnitInterval
  rcases hw.halves with ⟨hlower, -, hleast⟩ | ⟨hupper, -, hleast⟩
  · obtain ⟨r, hroot, hr, hr', hsquare⟩ := exists_root (w := w) (by linarith) hlower
    refine ⟨stop - (stop - start) * r, by simp [inverse, hunit, hleast, hroot], fun hclear => ?_⟩
    obtain ⟨-, hcurve⟩ := curves_from_stop h hr hr' (hclear _ (by simp)) (hclear stop (by simp))
    simp [degree, hcurve, hsquare]
  · obtain ⟨r, hroot, hr, hr', hsquare⟩ := exists_root (w := 1 - w) (by linarith) (by linarith)
    refine ⟨start + (stop - start) * r, by simp [inverse, hunit, hleast, hroot], fun hclear => ?_⟩
    obtain ⟨-, hcurve⟩ := curves_from_start h hr hr' (hclear start (by simp))
    simp [degree, hcurve, hsquare]

/-- The exponent of an inner degree is far below those that are not raised. -/
theorem IsInner.log_le (hw : IsInner w) : Real.log (1 / w - 1) ≤ 700 := by
  have hpower : (141 : ℝ) ^ 5 ≤ Real.exp 700 := by
    have hfifth : (141 : ℝ) ≤ Real.exp 140 := by linarith [Real.add_one_le_exp (140 : ℝ)]
    calc (141 : ℝ) ^ 5 ≤ Real.exp 140 ^ 5 := pow_le_pow_left₀ (by norm_num) hfifth 5
      _ = Real.exp 700 := by
        rw [← Real.exp_nat_mul]
        norm_num
  have hquotient : 1 / w ≤ 1 / epsilon := one_div_le_one_div_of_le epsilon_pos hw.low
  have hbound : 1 / epsilon ≤ (141 : ℝ) ^ 5 := by norm_num [epsilon]
  exact (Real.log_le_iff_le_exp hw.odds_pos).2 (by linarith)

theorem returns_sigmoid {inflection slope : ℝ} (hw : IsInner w) (h : slope ≠ 0) :
    Returns (.sigmoid (finite inflection) (finite slope)) [] w := by
  intro minimum maximum height
  have hpos := epsilon_pos
  have hlow := hw.low
  have hhigh := hw.high
  have hw₀ : w ≠ 0 := by linarith
  have hone : ¬|w - 1| < epsilon := by
    rw [abs_of_neg (by linarith)]
    linarith
  have hzero : ¬|w - 0| < epsilon := by
    rw [sub_zero, abs_of_pos (by linarith)]
    linarith
  have hneg : -finite slope = finite (-slope) := rfl
  refine ⟨inflection + Real.log (1 / w - 1) / -slope, ?_, fun _ => ?_⟩
  · simp only [inverse, literal_one, literal_zero, near_finite, decide_eq_false hone, decide_eq_false hzero,
      hw.inUnitInterval, Bool.not_true, Bool.false_eq_true, if_false, divide_finite hw₀, ok_bind, finite_sub,
      apply_log_finite hw.odds_pos, hneg, divide_finite (neg_ne_zero.2 h), finite_add, pure_eq_ok]
  · have hexponent : -slope * (inflection + Real.log (1 / w - 1) / -slope - inflection) =
        Real.log (1 / w - 1) := by
      field_simp
      ring
    have hlogistic := logistic_finite (hexponent.trans_le hw.log_le)
    rw [hexponent, Real.exp_log hw.odds_pos, add_sub_cancel, one_div_one_div] at hlogistic
    simp only [degree, hlogistic, ok_bind, finite_mul, pure_eq_ok]

theorem returns_concave {inflection stop : ℝ} (hw : IsInner w) (h : epsilon ≤ |stop - inflection|) :
    Returns (.concave (finite inflection) (finite stop)) [stop] w := by
  intro minimum maximum height
  have hpos := epsilon_pos
  have hlow := hw.low
  have hw₀ : w ≠ 0 := by linarith
  obtain ⟨z, hz⟩ : ∃ z, z = (inflection - stop) / w + 2 * stop - inflection := ⟨_, rfl⟩
  refine ⟨z, by simp [inverse, hw₀, hz], fun hclear => ?_⟩
  have hstop := hclear stop (by simp)
  have hodds := hw.odds_pos
  -- where the curve has the degree, it is on the side of the end on which it still changes
  have hdistance : z - stop = -((stop - inflection) * (1 / w - 1)) := by
    rw [hz]
    field_simp
    ring
  have hwidth : stop - inflection ≠ 0 := by
    intro hzero
    rw [hzero, abs_zero] at h
    linarith
  have hquotient : (stop - inflection) / w ≠ 0 := div_ne_zero hwidth hw₀
  have hshare : height * (stop - inflection) / ((stop - inflection) / w) = height * w := by field_simp
  rcases le_abs.1 h with hrising | hfalling
  · have hbefore : 0 < (stop - inflection) * (1 / w - 1) := mul_pos (by linarith) hodds
    rw [abs_of_neg (by linarith)] at hstop
    have hmost : inflection < stop + epsilon := by linarith
    have hbelow : z + epsilon ≤ stop := by linarith
    have hdivisor : 2 * stop - inflection - z = (stop - inflection) / w := by
      rw [hz]
      field_simp
      ring
    simp only [degree, atMost_finite, below_finite, decide_eq_true hmost, decide_eq_true hbelow, if_true, literal_two,
      finite_sub, finite_mul, hdivisor, divide_finite hquotient, hshare]
  · have hbehind : (stop - inflection) * (1 / w - 1) < 0 := mul_neg_of_neg_of_pos (by linarith) hodds
    rw [abs_of_pos (by linarith)] at hstop
    have hmost : ¬inflection < stop + epsilon := by linarith
    have habove : stop + epsilon ≤ z := by linarith
    have hdivisor : inflection - 2 * stop + z = -((stop - inflection) / w) := by
      rw [hz]
      field_simp
      ring
    have hshare' : height * (inflection - stop) / -((stop - inflection) / w) = height * w := by
      rw [← neg_sub, mul_neg, neg_div_neg_eq, hshare]
    simp only [degree, atMost_finite, above_finite, decide_eq_false hmost, decide_eq_true habove, Bool.false_eq_true,
      if_false, if_true, literal_two, finite_sub, finite_mul, finite_add, hdivisor,
      divide_finite (neg_ne_zero.2 hquotient), hshare']

/-- Every slope has an inner degree where its inverse leads, off the breakpoints, times the height. -/
theorem IsSlope.returns {s : Shape Exact} {breakpoints : List ℝ} (hs : IsSlope s breakpoints) (hw : IsInner w) :
    Returns s breakpoints w := by
  cases hs with
  | ramp h => exact returns_ramp hw h
  | sShape h => exact returns_sShape hw h
  | zShape h => exact returns_zShape hw h
  | sigmoid h => exact returns_sigmoid hw h
  | concave h => exact returns_concave hw h

end Inverses

end Shape

/-! ## §3 Terms -/

namespace Term

/-- Inverting a term on a slope at an inner degree names a crisp value. Unless this is too close to a breakpoint, the
term has the degree there times its height, which is the degree itself exactly if the height is one. -/
theorem membership_invert {t : Term Exact} {s : Shape Exact} {breakpoints : List ℝ} {height w : ℝ}
    (hbody : t.body = .shape s (finite height)) (hs : s.IsSlope breakpoints) (hw : Shape.IsInner w)
    (around : Option (Surroundings Exact)) (minimum maximum : Exact) :
    ∃ z, t.invert (finite w) minimum maximum = .ok (finite z) ∧
      ((∀ b ∈ breakpoints, epsilon ≤ |z - b|) →
        t.membership around (finite z) = .ok (finite (height * w)) ∧
        (t.membership around (finite z) = .ok (finite w) ↔ height = 1)) := by
  obtain ⟨z, hinverse, hdegree⟩ := hs.returns hw minimum maximum height
  have hmonotonic : s.isMonotonic = true := by cases hs <;> rfl
  have hblank : s.isBlank = false := by cases hs <;> rfl
  have hw₀ : w ≠ 0 := (epsilon_pos.trans_le hw.low).ne'
  refine ⟨z, ?_, fun hclear => ?_⟩
  · simp only [invert, hbody, Shape.invert, hmonotonic, if_true, hinverse, liftM_ok]
  · have hmembership : t.membership around (finite z) = .ok (finite (height * w)) := by
      simp only [membership, hbody, Shape.membership, isNaN_finite, hblank, hdegree hclear, Bool.false_eq_true,
        if_false, liftM_ok]
    refine ⟨hmembership, ?_⟩
    rw [hmembership, Except.ok.injEq, finite_inj, mul_eq_right₀ hw₀]

/-- A ramp of any height. -/
def rampOf (start stop height : ℝ) : Term Exact :=
  ⟨0, .text "ramp", .shape (.ramp (finite start) (finite stop)) (finite height)⟩

/-- Asked for one quarter, the ramp of height one half leads to where it has one eighth. -/
theorem membership_invert_lowRamp :
    (rampOf 0 10 (1 / 2)).invert (finite (1 / 4)) (finite 0) (finite 10) = .ok (finite (5 / 2)) ∧
    (rampOf 0 10 (1 / 2)).membership none (finite (5 / 2)) = .ok (finite (1 / 8)) ∧
    (rampOf 0 10 (1 / 2)).membership none (finite (5 / 2)) ≠ .ok (finite (1 / 4)) := by
  have hsmall : epsilon ≤ 1 / 4 := by norm_num [epsilon]
  have hslope : (Shape.ramp (finite 0) (finite 10)).IsSlope [0, 10] := .ramp (by norm_num [epsilon])
  have hinner : Shape.IsInner (1 / 4) := ⟨hsmall, by linarith, by norm_num [epsilon]⟩
  obtain ⟨z, hinvert, hmembership⟩ :=
    membership_invert (t := rampOf 0 10 (1 / 2)) rfl hslope hinner none (finite 0) (finite 10)
  have hvalue : (rampOf 0 10 (1 / 2)).invert (finite (1 / 4)) (finite 0) (finite 10) = .ok (finite (5 / 2)) := by
    norm_num [rampOf, invert, Shape.invert, Shape.isMonotonic, Shape.inverse, rescale]
  obtain rfl : z = 5 / 2 := finite_inj.1 (Except.ok.inj (hinvert.symm.trans hvalue))
  obtain ⟨hdegree, hequal⟩ := hmembership (by norm_num [epsilon])
  refine ⟨hvalue, ?_, fun h => ?_⟩
  · rw [hdegree]
    norm_num
  · exact absurd (hequal.1 h) (by norm_num)

end Term

end FuzzyInference
