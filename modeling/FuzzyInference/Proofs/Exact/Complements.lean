import FuzzyInference.Proofs.Exact.Inversion

/-!
# Complementary curves

The s-curve and the z-curve over one interval add up to one, and the inverse of either curve at a degree is the inverse
of the other at what the degree leaves of one. Curves and inverses choose their branches by tolerant comparison, and
the inverses compare with the middle of the unit interval in opposite directions. They switch at the same places all
the same, also over an interval that is empty or given in the wrong order, where both curves are steps.

The plan of this module:

* the curves over any interval;
* the inverses of a degree and of its complement;
* terms.

## Main statements

* `Shape.curves_complement`, `Shape.inverses_complement`: curves and inverses, side by side
* `Term.membership_complement`: two terms whose degrees add up, and whose inverses meet
-/

namespace FuzzyInference

open Scalar Exact Checked

namespace Shape

variable {start stop w : ℝ}

/-! ## §1 Curves -/

/-- What the s-curve leaves of one is the z-curve, whatever the order of the ends. -/
theorem curves_complement (start stop x : ℝ) :
    ∃ v, sCurve (finite x) (finite start) (finite stop) = .ok (finite v) ∧
      zCurve (finite x) (finite start) (finite stop) = .ok (finite (1 - v)) := by
  by_cases hlow : x < start + epsilon
  · exact ⟨0, by simp [sCurve, hlow], by simp [zCurve, hlow]⟩
  by_cases hmiddle : x < half * (start + stop) + epsilon
  -- the branch is entered only where the middle, and with it the end, lies behind the start
  · have hwidth : stop - start ≠ 0 := by
      rw [half_eq] at hmiddle
      linarith
    exact ⟨2 * ((x - start) / (stop - start)) ^ 2, by simp [sCurve, hlow, hmiddle, hwidth],
      by simp [zCurve, hlow, hmiddle, hwidth]⟩
  by_cases hhigh : x + epsilon ≤ stop
  · have hwidth : stop - start ≠ 0 := by
      have hpos := epsilon_pos
      rw [half_eq] at hmiddle
      linarith
    exact ⟨1 - 2 * ((x - stop) / (stop - start)) ^ 2, by simp [sCurve, hlow, hmiddle, hhigh, hwidth],
      by simp [zCurve, hlow, hmiddle, hhigh, hwidth]⟩
  · exact ⟨1, by simp [sCurve, hlow, hmiddle, hhigh], by simp [zCurve, hlow, hmiddle, hhigh]⟩

/-! ## §2 Inverses -/

/-- The share of the width at which an inverse looks is a root of at most one. -/
theorem exists_share (hw : w ∈ Set.Icc (0 : ℝ) 1) :
    ∃ r ∈ Set.Icc (0 : ℝ) 1, Scalar.apply .sqrt (finite (half * w)) = .ok (finite r) := by
  have hradicand : 0 ≤ half * w := by
    rw [half_eq]
    linarith [hw.1]
  refine ⟨Real.sqrt (half * w), ⟨Real.sqrt_nonneg _, ?_⟩, apply_sqrt_finite hradicand⟩
  apply Real.sqrt_le_one.2
  rw [half_eq]
  linarith [hw.2]

/-- A share of the width away from either end stays between the ends. -/
theorem add_share_mem_uIcc (start stop : ℝ) {r : ℝ} (hr : r ∈ Set.Icc (0 : ℝ) 1) :
    start + (stop - start) * r ∈ Set.uIcc start stop := by
  obtain ⟨hlow, hhigh⟩ := hr
  rcases le_total start stop with h | h
  · rw [Set.uIcc_of_le h]
    constructor <;> nlinarith
  · rw [Set.uIcc_of_ge h]
    constructor <;> nlinarith

theorem sub_share_mem_uIcc (start stop : ℝ) {r : ℝ} (hr : r ∈ Set.Icc (0 : ℝ) 1) :
    stop - (stop - start) * r ∈ Set.uIcc start stop := by
  rw [Set.uIcc_comm, show stop - (stop - start) * r = stop + (start - stop) * r by ring]
  exact add_share_mem_uIcc stop start hr

/-- A degree leads the s-curve where its complement leads the z-curve. -/
theorem inverses_complement (start stop : ℝ) (hw : w ∈ Set.Icc (0 : ℝ) 1) (minimum maximum : Exact) :
    ∃ z ∈ Set.uIcc start stop,
      (sShape (finite start) (finite stop)).inverse (finite w) minimum maximum = .ok (finite z) ∧
      (zShape (finite start) (finite stop)).inverse (finite (1 - w)) minimum maximum = .ok (finite z) := by
  have hcomplement : 1 - w ∈ Set.Icc (0 : ℝ) 1 := ⟨by linarith [hw.2], by linarith [hw.1]⟩
  have hunit := inUnitInterval_of_mem hw
  have hunit' := inUnitInterval_of_mem hcomplement
  by_cases hmost : w < half + epsilon
  · have hleast : half < 1 - w + epsilon := by
      rw [half_eq] at hmost ⊢
      linarith
    obtain ⟨r, hr, hroot⟩ := exists_share hw
    refine ⟨start + (stop - start) * r, add_share_mem_uIcc start stop hr, ?_, ?_⟩
    · simp [inverse, hunit, hmost, hroot]
    · simp [inverse, hunit', hleast, hroot]
  · have hleast : ¬half < 1 - w + epsilon := by
      rw [half_eq] at hmost ⊢
      linarith
    obtain ⟨r, hr, hroot⟩ := exists_share hcomplement
    refine ⟨stop - (stop - start) * r, sub_share_mem_uIcc start stop hr, ?_, ?_⟩
    · simp [inverse, hunit, hmost, hroot]
    · simp [inverse, hunit', hleast, hroot]

end Shape

/-! ## §3 Terms -/

namespace Term

variable {s z : Term Exact} {start stop height : ℝ}

/-- The degrees of an s-shape and a z-shape with the same ends and of the same height add up to the height at every
crisp value. The s-shape inverts a degree, and the z-shape what the degree leaves of one, to the same crisp value
between the ends. -/
theorem membership_complement (hs : s.body = .shape (.sShape (finite start) (finite stop)) (finite height))
    (hz : z.body = .shape (.zShape (finite start) (finite stop)) (finite height))
    (around : Option (Surroundings Exact)) (x : ℝ) (minimum maximum : Exact) :
    (∃ a b, s.membership around (finite x) = .ok (finite a) ∧ z.membership around (finite x) = .ok (finite b) ∧
      a + b = height) ∧
    ∀ w ∈ Set.Icc (0 : ℝ) 1, ∃ y ∈ Set.uIcc start stop, s.invert (finite w) minimum maximum = .ok (finite y) ∧
      z.invert (finite (1 - w)) minimum maximum = .ok (finite y) := by
  constructor
  · obtain ⟨v, hrising, hfalling⟩ := Shape.curves_complement start stop x
    refine ⟨height * v, height * (1 - v), ?_, ?_, by ring⟩
    · simp [membership, hs, Shape.membership, Shape.isBlank, Shape.degree, hrising]
    · simp [membership, hz, Shape.membership, Shape.isBlank, Shape.degree, hfalling]
  · intro w hw
    obtain ⟨y, hy, hsinverse, hzinverse⟩ := Shape.inverses_complement start stop hw minimum maximum
    refine ⟨y, hy, ?_, ?_⟩
    · simp [invert, hs, Shape.invert, Shape.isMonotonic, hsinverse]
    · simp [invert, hz, Shape.invert, Shape.isMonotonic, hzinverse]

/-- A rise and a fall between the same ends, of height one. -/
def rise (start stop : ℝ) : Term Exact := ⟨0, .text "rise", .shape (.sShape (finite start) (finite stop)) (finite 1)⟩

def fall (start stop : ℝ) : Term Exact := ⟨1, .text "fall", .shape (.zShape (finite start) (finite stop)) (finite 1)⟩

/-- The ends may be given in the wrong order, and a degree at the middle of the unit interval makes no difference. -/
theorem membership_complement_reversed :
    (1 / 2 : ℝ) ∈ Set.Icc (0 : ℝ) 1 ∧
    (∃ a b, (rise 3 1).membership none (finite 2) = .ok (finite a) ∧
      (fall 3 1).membership none (finite 2) = .ok (finite b) ∧ a + b = 1) ∧
    ∃ y ∈ Set.uIcc (3 : ℝ) 1, (rise 3 1).invert (finite (1 / 2)) (finite 0) (finite 4) = .ok (finite y) ∧
      (fall 3 1).invert (finite (1 - 1 / 2)) (finite 0) (finite 4) = .ok (finite y) := by
  have hw : (1 / 2 : ℝ) ∈ Set.Icc (0 : ℝ) 1 := by norm_num
  obtain ⟨hdegrees, hinverses⟩ :=
    membership_complement (s := rise 3 1) (z := fall 3 1) rfl rfl none 2 (finite 0) (finite 4)
  exact ⟨hw, hdegrees, hinverses (1 / 2) hw⟩

end Term

end FuzzyInference
