import FuzzyInference.Proofs.Decimal.Value
import FuzzyInference.Proofs.Faults.Formulas
import FuzzyInference.Proofs.Faults.Terms
import FuzzyInference.Proofs.Ranking

/-!
# Faults of inverses

A monotonic shape is asked for the crisp value of any degree, also of one that a weight or rounding has brought out of
the unit interval, and of `nan`. Three of the five shapes look first whether the degree lies in the interval, and have
no value outside. That test is tolerant, while the root that two of them take afterwards is not: a degree that is
outside by less than the tolerance passes the test and has no root. The concave shape has no test, and divides by the
degree; the sigmoid has one, but divides by its slope as well.

The plan of this module:

* values of degrees that pass a tolerant test;
* roots of halves, quotients that the sigmoid takes the logarithm of;
* the inverses of all shapes.

## Main statements

* `Shape.inverseFaults_iff`: where the inverse of a shape faults
* `Term.invert_spec`: what inverting a monotonic term comes to, for every degree
-/

namespace FuzzyInference

open Scalar Checked

namespace Float

variable {x y w : Float}

/-! ## §1 Degrees that pass a test -/

theorem isFinite_tolerance : Scalar.isFinite (tolerance : Float) = true := by decide

theorem isFinite_literals : Scalar.isFinite (0.0 : Float) = true ∧ Scalar.isFinite (0.5 : Float) = true ∧
    Scalar.isFinite (1.0 : Float) = true := by decide

/-- Numbers that are near differ by less than ten times the tolerance. -/
theorem abs_sub_lt_of_near (hx : Scalar.isFinite x = true) (hy : Scalar.isFinite y = true) (h : near x y = true) :
    |value x - value y| < 1 / 10 ^ 8 := by
  obtain ⟨hlow, hhigh⟩ := value_tolerance_bounds
  by_contra hfar
  have hapart := nearWithin_eq_false isFinite_tolerance (by linarith) hx hy (by linarith)
  rw [near, hapart] at h
  cases h

/-- Numbers that are not near differ by almost the tolerance at least. -/
theorem le_abs_sub_of_near (hx : Scalar.isFinite x = true) (hy : Scalar.isFinite y = true) (h : near x y = false) :
    9 / 10 ^ 10 ≤ |value x - value y| := by
  obtain ⟨hlow, hhigh⟩ := value_tolerance_bounds
  by_contra hclose
  have hnear := nearWithin_of_lt isFinite_tolerance (by linarith) hx hy (by linarith)
  rw [near, hnear] at h
  cases h

/-- What is at least a number falls short of it by less than ten times the tolerance. -/
theorem lt_value_of_atLeast (hx : Scalar.isFinite x = true) (hy : Scalar.isFinite y = true)
    (h : atLeast x y = true) : value y - 1 / 10 ^ 8 < value x := by
  rcases Bool.or_eq_true_iff.1 h with hnear | hlt
  · linarith [(abs_lt.1 (abs_sub_lt_of_near hx hy hnear)).1]
  · linarith [(lt_iff_value_lt hy hx).1 (of_decide_eq_true hlt)]

theorem value_lt_of_atMost (hx : Scalar.isFinite x = true) (hy : Scalar.isFinite y = true)
    (h : atMost x y = true) : value x < value y + 1 / 10 ^ 8 := by
  rcases Bool.or_eq_true_iff.1 h with hnear | hlt
  · linarith [(abs_lt.1 (abs_sub_lt_of_near hx hy hnear)).2]
  · linarith [(lt_iff_value_lt hx hy).1 (of_decide_eq_true hlt)]

/-- What is not at least a number is less than it. -/
theorem value_le_of_not_atLeast (hx : Scalar.isFinite x = true) (hy : Scalar.isFinite y = true)
    (h : atLeast x y = false) : value x ≤ value y := by
  obtain ⟨-, hlt⟩ := Bool.or_eq_false_iff.1 h
  exact not_lt.1 fun hgt => of_decide_eq_false hlt ((lt_iff_value_lt hy hx).2 hgt)

theorem value_le_of_not_atMost (hx : Scalar.isFinite x = true) (hy : Scalar.isFinite y = true)
    (h : atMost x y = false) : value y ≤ value x := by
  obtain ⟨-, hlt⟩ := Bool.or_eq_false_iff.1 h
  exact not_lt.1 fun hgt => of_decide_eq_false hlt ((lt_iff_value_lt hx hy).2 hgt)

/-- What holds of no number that is not finite holds of finite numbers only. -/
theorem isFinite_of_not {P : Float → Prop} (hnan : ¬P nan) (hinf : ¬P inf) (hneg : ¬P (-inf)) (h : P x) :
    Scalar.isFinite x = true := by
  by_contra hnot
  rcases cases_of_not_isFinite (Bool.eq_false_iff.2 hnot) with rfl | rfl | rfl
  · exact hnan h
  · exact hinf h
  · exact hneg h

/-- The test for the unit interval is passed by finite degrees only, and by none that is far outside. -/
theorem bounds_of_inUnitInterval (h : Shape.inUnitInterval w = true) :
    Scalar.isFinite w = true ∧ -1 / 10 ^ 8 < value w ∧ value w < 1 + 1 / 10 ^ 8 := by
  obtain ⟨hzero, -, hone⟩ := isFinite_literals
  have hfinite := isFinite_of_not (P := fun w => Shape.inUnitInterval w = true) (by decide) (by decide) (by decide) h
  unfold Shape.inUnitInterval at h
  rw [Bool.and_eq_true, Bool.and_eq_true] at h
  obtain ⟨⟨-, hleast⟩, hmost⟩ := h
  have hlow := lt_value_of_atLeast hfinite hzero hleast
  have hhigh := value_lt_of_atMost hfinite hone hmost
  rw [value_zero] at hlow
  rw [value_one] at hhigh
  exact ⟨hfinite, by linarith, hhigh⟩

/-! ## §2 Roots of halves -/

/-- Numbers above one exceed it by a unit in the last place at least. -/
theorem one_add_le_value (hw : Scalar.isFinite w = true) (h : 1 < value w) : 1 + 1 / 2 ^ 52 ≤ value w := by
  obtain ⟨negative, m, e, hm⟩ := Decimal.exists_of_isFinite hw
  have hlt := (Decimal.isCanonical_of_ofFloat hm).1.lt
  have hvalue : value w = (Decimal.Binary.finite negative m e).value := congrArg Decimal.Binary.value hm
  have hmagnitude : value w = m * 2 ^ e := by
    rw [← abs_of_pos (one_pos.trans h), hvalue, Decimal.Binary.abs_value]
  -- a smaller exponent would leave the number below one
  have he : -52 ≤ e := by
    by_contra hsmall
    have hpow : (2 : ℚ) ^ e ≤ 2 ^ (-53 : ℤ) := zpow_le_zpow_right₀ one_le_two (by omega)
    have hm' : (m : ℚ) < 2 ^ 53 := by exact_mod_cast hlt
    have hone : (m : ℚ) * 2 ^ e < 1 := by
      calc (m : ℚ) * 2 ^ e ≤ m * 2 ^ (-53 : ℤ) := mul_le_mul_of_nonneg_left hpow m.cast_nonneg
        _ < 2 ^ 53 * 2 ^ (-53 : ℤ) := mul_lt_mul_of_pos_right hm' (by positivity)
        _ = 1 := by norm_num
    rw [hmagnitude] at h
    exact absurd h hone.not_gt
  obtain ⟨k, hk⟩ : ∃ k : ℕ, e = k - 52 := ⟨(e + 52).toNat, by omega⟩
  have hunits : value w = ((m * 2 ^ k : ℕ) : ℚ) / 2 ^ 52 := by
    rw [hmagnitude, hk, zpow_sub₀ two_ne_zero, zpow_natCast]
    push_cast
    rw [mul_div_assoc]
    rfl
  have hcount : 2 ^ 52 + 1 ≤ m * 2 ^ k := by
    rw [hunits, lt_div_iff₀ (by positivity), one_mul] at h
    exact_mod_cast h
  have hcount' : ((2 ^ 52 + 1 : ℕ) : ℚ) ≤ (m * 2 ^ k : ℕ) := by exact_mod_cast hcount
  rw [hunits, le_div_iff₀ (by positivity)]
  norm_num at hcount' ⊢
  linarith

/-- A half of a degree that is not negative is not negative. -/
theorem not_half_neg (hw : Scalar.isFinite w = true) (hlow : 0 ≤ value w) (hhigh : value w ≤ 2) :
    ¬0.5 * w < 0.0 := by
  obtain ⟨hzero, hhalf, -⟩ := isFinite_literals
  have hfour := Decimal.four_le_sizeBound
  have hproduct : (0 : ℚ) ≤ value 0.5 * value w := by
    rw [value_half]
    linarith
  obtain ⟨hfinite, -, hsign⟩ := mul_spec hhalf hw (by
    rw [abs_of_nonneg hproduct, value_half]
    linarith)
  rw [lt_iff_value_lt hfinite hzero, value_zero]
  exact not_lt.2 (hsign hproduct)

theorem leastUnit_lt : Decimal.leastUnit < 1 / 2 ^ 60 := by
  have h : (2 : ℚ) ^ (-1074 : ℤ) < 2 ^ (-60 : ℤ) := zpow_lt_zpow_right₀ one_lt_two (by norm_num)
  calc Decimal.leastUnit < 2 ^ (-60 : ℤ) := h
    _ = 1 / 2 ^ 60 := by norm_num

/-- The half of what is left to one is negative for the degrees above one. -/
theorem half_left_neg_iff (hw : Scalar.isFinite w = true) (hlow : -1 / 2 ≤ value w) (hhigh : value w ≤ 2) :
    0.5 * (1.0 - w) < 0.0 ↔ 1.0 < w := by
  obtain ⟨hzero, hhalf, hone⟩ := isFinite_literals
  have hfour := Decimal.four_le_sizeBound
  rw [lt_iff_value_lt hone hw, value_one]
  constructor
  · intro hneg
    by_contra hle
    obtain ⟨hfinite, hleast, hmost⟩ := sub_bounds_of_le hone hw (by rw [value_one]; linarith)
      (by rw [value_one]; linarith)
    rw [value_one] at hleast hmost
    have hnonneg : 0 ≤ (1 - value w) * (1 - 1 / 2 ^ 52) := mul_nonneg (by linarith) (by norm_num)
    exact not_half_neg hfinite (by linarith) (by linarith) hneg
  · intro hlt
    have hstep := one_add_le_value hw hlt
    obtain ⟨hfinite, hleast, hmost⟩ := sub_bounds_of_ge hone hw (by rw [value_one]; linarith)
      (by rw [value_one]; linarith)
    rw [value_one] at hleast hmost
    have hleft : value (1.0 - w) ≤ -(1 / 2 ^ 53) := by
      norm_num at hstep hmost ⊢
      linarith
    have hproduct : |value 0.5 * value (1.0 - w)| = -value (1.0 - w) / 2 := by
      rw [value_half, abs_of_nonpos (by linarith)]
      ring
    obtain ⟨hfinite', herror, -⟩ := mul_spec hhalf hfinite (by
      rw [hproduct]
      linarith)
    rw [hproduct, value_half] at herror
    rw [lt_iff_value_lt hfinite' hzero, value_zero]
    have hupper := (abs_le.1 herror).2
    have hsmall := leastUnit_lt
    norm_num at hsmall hleft hupper
    linarith

/-! ## §3 Quotients of the sigmoid -/

/-- The sigmoid takes the logarithm of a finite positive number, for the degrees that comparison can tell from zero
and from one. -/
theorem odds_of_inUnitInterval (hw : Shape.inUnitInterval w = true) (hzero : near w 0.0 = false)
    (hone : near w 1.0 = false) :
    (w == 0.0) = false ∧ 0.0 < 1.0 / w - 1.0 ∧ Scalar.isFinite (1.0 / w - 1.0) = true := by
  obtain ⟨hzero', -, hone'⟩ := isFinite_literals
  obtain ⟨hfinite, -, -⟩ := bounds_of_inUnitInterval hw
  have hlow := le_abs_sub_of_near hfinite hzero' hzero
  have hhigh := le_abs_sub_of_near hfinite hone' hone
  unfold Shape.inUnitInterval at hw
  rw [Bool.and_eq_true, Bool.and_eq_true] at hw
  have hpos : 0 < value w := by
    rcases Bool.or_eq_true_iff.1 hw.1.2 with hnear | hlt
    · exact absurd hnear (by rw [← near, hzero]; exact Bool.false_ne_true)
    · exact value_zero ▸ (lt_iff_value_lt hzero' hfinite).1 (of_decide_eq_true hlt)
  have hlt : value w < 1 := by
    rcases Bool.or_eq_true_iff.1 hw.2 with hnear | hlt
    · exact absurd hnear (by rw [← near, hone]; exact Bool.false_ne_true)
    · exact value_one ▸ (lt_iff_value_lt hfinite hone').1 (of_decide_eq_true hlt)
  rw [value_zero, sub_zero, abs_of_pos hpos] at hlow
  rw [value_one, abs_of_neg (by linarith)] at hhigh
  have hquotient : 1 + 9 / 10 ^ 10 ≤ 1 / value w ∧ 1 / value w ≤ 2 ^ 32 := by
    constructor
    · rw [le_div_iff₀ hpos]
      nlinarith
    · rw [div_le_iff₀ hpos]
      linarith
  obtain ⟨hquotient, hquotient'⟩ := hquotient
  have hlarge := Decimal.two_pow_le_sizeBound
  have hsmall := leastUnit_lt
  norm_num at hlarge hsmall hquotient hquotient'
  obtain ⟨hdiv, herror⟩ := div_spec hone' hfinite (by rw [value_one]; exact one_ne_zero) hpos.ne' (by
    rw [value_one, abs_of_pos (one_div_pos.2 hpos), one_div]
    linarith)
  rw [value_one, abs_of_pos (one_div_pos.2 hpos), one_div] at herror
  obtain ⟨hleast, hmost⟩ := abs_le.1 herror
  norm_num at hleast hmost
  obtain ⟨hsub, hodds, -⟩ := sub_bounds_of_le hdiv hone' (by rw [value_one]; linarith) (by rw [value_one]; linarith)
  rw [value_one] at hodds
  have hexcess : 0 < (value (1.0 / w) - 1) * (1 - 1 / 2 ^ 52) := mul_pos (by linarith) (by norm_num)
  refine ⟨?_, ?_, hsub⟩
  · rw [← Bool.not_eq_true, beq_iff_value_eq hfinite hzero', value_zero]
    exact hpos.ne'
  · rw [lt_iff_value_lt hzero' hsub, value_zero]
    linarith

/-- A number is zero if its opposite is. -/
theorem neg_beq_zero (x : Float) : (-x == 0.0) = (x == 0.0) := by
  have hbeq : ∀ y : Float, (y == 0.0) = (y.toModel.unpack.compare (.zero .positive) == some .eq) := fun _ => rfl
  rw [hbeq, hbeq, unpack_neg]
  cases x.toModel.unpack with
  | notANumber => rfl
  | infinity s => cases s <;> rfl
  | zero s => rfl
  | finite s m e hm => cases s <;> rfl

/-- Degrees that are near an end of the unit interval pass the test. -/
theorem inUnitInterval_of_near (h : near w 0.0 = true ∨ near w 1.0 = true) : Shape.inUnitInterval w = true := by
  obtain ⟨hzero, -, hone⟩ := isFinite_literals
  have hfinite := isFinite_of_not (P := fun w => near w 0.0 = true ∨ near w 1.0 = true) (by decide) (by decide)
    (by decide) h
  unfold Shape.inUnitInterval
  rw [Bool.and_eq_true, Bool.and_eq_true, isNaN_of_isFinite hfinite]
  rcases h with hnear | hnear
  · have hclose := abs_lt.1 (abs_sub_lt_of_near hfinite hzero hnear)
    rw [value_zero] at hclose
    refine ⟨⟨rfl, Bool.or_eq_true_iff.2 (.inl hnear)⟩, Bool.or_eq_true_iff.2 (.inr (decide_eq_true ?_))⟩
    rw [lt_iff_value_lt hfinite hone, value_one]
    linarith [hclose.2]
  · have hclose := abs_lt.1 (abs_sub_lt_of_near hfinite hone hnear)
    rw [value_one] at hclose
    refine ⟨⟨rfl, Bool.or_eq_true_iff.2 (.inr (decide_eq_true ?_))⟩, Bool.or_eq_true_iff.2 (.inl hnear)⟩
    rw [lt_iff_value_lt hzero hfinite, value_zero]
    linarith [hclose.1]

end Float

namespace Shape

/-! ## §4 Inverses -/

/-- The steps at which the inverse of a shape faults on floating-point numbers. -/
def Unguarded (s : Shape Float) (w : Float) (f : Fault) : Prop :=
  match s with
  | sShape .. | zShape .. => inUnitInterval w = true ∧ (0.5 * w < 0.0 ∨ 1.0 < w) ∧ f = .domain
  | sigmoid _ slope =>
    inUnitInterval w = true ∧ near w 0.0 = false ∧ near w 1.0 = false ∧
      (ApplyFaults .log (1.0 / w - 1.0) f ∨
        (∃ y, Scalar.apply .log (1.0 / w - 1.0) = .ok y) ∧ (slope == 0.0) = true ∧ f = .zeroDivision)
  | concave .. => (w == 0.0) = true ∧ f = .zeroDivision
  | _ => False

/-- A root is taken of a negative number at the degrees that pass the test and are outside of the interval. -/
theorem roots_neg_iff {w : Float} (h : inUnitInterval w = true) :
    ((if atMost w 0.5 then 0.5 * w else 0.5 * (1.0 - w)) < 0.0 ↔ 0.5 * w < 0.0 ∨ 1.0 < w) ∧
    ((if atLeast w 0.5 then 0.5 * (1.0 - w) else 0.5 * w) < 0.0 ↔ 0.5 * w < 0.0 ∨ 1.0 < w) := by
  obtain ⟨-, hhalf, hone⟩ := Float.isFinite_literals
  obtain ⟨hfinite, hlow, hhigh⟩ := Float.bounds_of_inUnitInterval h
  have hleft := Float.half_left_neg_iff hfinite (by linarith) (by linarith)
  -- in the lower half no degree is above one, in the upper half no half of one is negative
  have hlower : Float.value w ≤ 1 / 2 + 1 / 10 ^ 8 → ¬1.0 < w := by
    intro hle
    rw [Float.lt_iff_value_lt hone hfinite, Float.value_one]
    norm_num at hle
    linarith
  have hupper : 1 / 2 - 1 / 10 ^ 8 ≤ Float.value w → ¬0.5 * w < 0.0 := by
    intro hle
    norm_num at hle
    exact Float.not_half_neg hfinite (by linarith) (by linarith)
  constructor
  · cases hmost : atMost w 0.5 with
    | true =>
      have hvalue := Float.value_lt_of_atMost hfinite hhalf hmost
      rw [Float.value_half] at hvalue
      exact (or_iff_left (hlower hvalue.le)).symm
    | false =>
      have hvalue := Float.value_le_of_not_atMost hfinite hhalf hmost
      rw [Float.value_half] at hvalue
      exact hleft.trans (or_iff_right (hupper (by linarith))).symm
  · cases hleast : atLeast w 0.5 with
    | true =>
      have hvalue := Float.lt_value_of_atLeast hfinite hhalf hleast
      rw [Float.value_half] at hvalue
      exact hleft.trans (or_iff_right (hupper hvalue.le)).symm
    | false =>
      have hvalue := Float.value_le_of_not_atLeast hfinite hhalf hleast
      rw [Float.value_half] at hvalue
      exact (or_iff_left (hlower (by linarith))).symm

/-- The inverse of a shape faults where it is not guarded. -/
theorem inverseFaults_iff {s : Shape Float} {w : Float} {f : Fault} : s.InverseFaults w f ↔ s.Unguarded w f := by
  cases s with
  | ramp start stop =>
    have hone : ((1.0 - 0.0 : Float) == 0.0) = false := by decide
    exact iff_of_false (fun h => Bool.false_ne_true (hone.symm.trans h.1)) id
  | sShape start stop =>
    refine and_congr_right fun h => ?_
    rw [Float.applyFaults_sqrt_iff, (roots_neg_iff h).1]
  | zShape start stop =>
    refine and_congr_right fun h => ?_
    rw [Float.applyFaults_sqrt_iff, (roots_neg_iff h).2]
  | sigmoid inflection slope =>
    simp only [InverseFaults, Unguarded, DivideFaults, Float.neg_beq_zero]
    constructor
    · rintro ⟨hone, hzero, hunit, q, hq, hfault⟩
      obtain ⟨hne, -, -⟩ := Float.odds_of_inUnitInterval hunit hzero hone
      rw [divide, hne, if_neg Bool.false_ne_true] at hq
      obtain rfl := Except.ok.inj hq
      refine ⟨hunit, hzero, hone, hfault.imp_right ?_⟩
      rintro ⟨y, hy, hslope, hf⟩
      exact ⟨⟨y, hy⟩, hslope, hf⟩
    · rintro ⟨hunit, hzero, hone, hfault⟩
      obtain ⟨hne, -, -⟩ := Float.odds_of_inUnitInterval hunit hzero hone
      refine ⟨hone, hzero, hunit, 1.0 / w, ?_, hfault.imp_right ?_⟩
      · rw [divide, hne, if_neg Bool.false_ne_true]
      · rintro ⟨⟨y, hy⟩, hslope, hf⟩
        exact ⟨y, hy, hslope, hf⟩
  | concave i e => exact Iff.rfl
  | _ => exact Iff.rfl

/-- The shape looks whether a degree lies in the unit interval before it is inverted. -/
def LooksFirst : Shape Float → Prop
  | sShape .. | zShape .. | sigmoid .. => True
  | _ => False

/-- A degree outside of the unit interval has no crisp value where the shape looks first. -/
theorem inverse_outside {s : Shape Float} {w : Float} (hs : s.LooksFirst) (h : inUnitInterval w = false)
    (minimum maximum : Float) : s.inverse w minimum maximum = .ok nan := by
  cases s with
  | sShape start stop => simp only [inverse, h, Bool.not_false, if_true]
  | zShape start stop => simp only [inverse, h, Bool.not_false, if_true]
  | sigmoid inflection slope =>
    have hzero : near w 0.0 = false := Bool.eq_false_iff.2 fun hnear =>
      Bool.false_ne_true (h.symm.trans (Float.inUnitInterval_of_near (.inl hnear)))
    have hone : near w 1.0 = false := Bool.eq_false_iff.2 fun hnear =>
      Bool.false_ne_true (h.symm.trans (Float.inUnitInterval_of_near (.inr hnear)))
    simp only [inverse, hzero, hone, h, Bool.false_eq_true, if_false, Bool.not_false, if_true]
  | _ => cases hs

end Shape

/-! ## §5 Terms -/

namespace Term

/-- Inverting a monotonic term stops with a fault where its shape is not guarded, and only there. The logarithm that a
sigmoid takes is that of a finite positive number, and the shapes that look first have no crisp value for a degree
outside of the unit interval. -/
theorem invert_spec {t : Term Float} {s : Shape Float} {height : Float} (hbody : t.body = .shape s height)
    (hs : s.isMonotonic = true) (w minimum maximum : Float) :
    (∀ err, t.invert w minimum maximum = .error err ↔ ∃ f, err = .fault f ∧ s.Unguarded w f) ∧
    (Shape.inUnitInterval w = true → near w 0.0 = false → near w 1.0 = false →
      0.0 < 1.0 / w - 1.0 ∧ isFinite (1.0 / w - 1.0) = true) ∧
    (s.LooksFirst → Shape.inUnitInterval w = false → t.invert w minimum maximum = .ok nan) := by
  have hinvert : t.invert w minimum maximum = liftM (s.inverse w minimum maximum) := by
    simp only [invert, hbody, Shape.invert, hs, if_true]
  refine ⟨fun err => ?_, fun hunit hzero hone => ?_, fun hfirst houtside => ?_⟩
  · have hfaults : ∀ f, s.inverse w minimum maximum = .error f ↔ s.Unguarded w f :=
      fun f => Shape.inverse_eq_error_iff.trans Shape.inverseFaults_iff
    rw [hinvert]
    cases hinverse : s.inverse w minimum maximum with
    | ok z =>
      rw [liftM_ok]
      refine iff_of_false (fun h => by cases h) ?_
      rintro ⟨f, -, hf⟩
      rw [(hfaults f).2 hf] at hinverse
      cases hinverse
    | error f =>
      rw [liftM_error, Except.error.injEq]
      constructor
      · rintro rfl
        exact ⟨f, rfl, (hfaults f).1 hinverse⟩
      · rintro ⟨g, rfl, hg⟩
        rw [(hfaults g).2 hg] at hinverse
        exact congrArg Error.fault (Except.error.inj hinverse).symm
  · exact (Float.odds_of_inUnitInterval hunit hzero hone).2
  · rw [hinvert, Shape.inverse_outside hfirst houtside, liftM_ok]

/-- A concave term. -/
def rising : Term Float := ⟨0, .text "rising", .shape (.concave 5.0 10.0) 1.0⟩

/-- A term that rises in two parabolas. -/
def bent : Term Float := ⟨1, .text "bent", .shape (.sShape 0.0 10.0) 1.0⟩

/-- A degree of zero stops a concave term, and degrees just outside of the unit interval stop a bent one. -/
theorem invert_spec_edges :
    rising.invert 0.0 0.0 10.0 = .error (.fault .zeroDivision) ∧
    bent.invert (-5e-10) 0.0 10.0 = .error (.fault .domain) ∧
    bent.invert 1.0000000005 0.0 10.0 = .error (.fault .domain) := by
  refine ⟨?_, ?_, ?_⟩
  · exact ((invert_spec (t := rising) rfl rfl 0.0 0.0 10.0).1 _).2 ⟨_, rfl, by decide, rfl⟩
  · exact ((invert_spec (t := bent) rfl rfl (-5e-10) 0.0 10.0).1 _).2
      ⟨_, rfl, by decide +kernel, .inl (by decide +kernel), rfl⟩
  · exact ((invert_spec (t := bent) rfl rfl 1.0000000005 0.0 10.0).1 _).2
      ⟨_, rfl, by decide +kernel, .inr (by decide +kernel), rfl⟩

end Term

end FuzzyInference
