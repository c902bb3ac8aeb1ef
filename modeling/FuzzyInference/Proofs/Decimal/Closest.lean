import Mathlib

/-!
# Closest numbers

Rounding keeps the bits of a significand that the format has and decides by the bits that follow whether to go up. Half
a unit in the last place is the most by which the result misses the exact one, and so no value that has the bits of the
format is closer. A closest value is all that is needed of rounding where results are exact, where they keep an order,
and where they are lost in a number that is much larger.

The plan of this module:

* the bits that shifting cuts off, and half a unit;
* values that have the bits of the format;
* closest values.

## Main statements

* `Decimal.roundedMantissa_bounds`: rounding is off by half a unit
* `Decimal.isClosest_of_half`: nothing is closer than half a unit
* `Decimal.IsRepresentable.abs_le_of_ne`: values differ by a share of their size
-/

namespace FuzzyInference.Decimal

open Float.Model UnpackedFloat

/-! ## §1 Half a unit -/

/-- Two bits stand for all that is shifted out: the first of them, and whether there is anything behind it. -/
theorem exists_rest_of_shift (m k : ℕ) :
    ∃ rest, 2 * m = (2 * (ExtendedMantissa.ofMantissaAndAccuracy m .exact >>> k).mantissa +
        (ExtendedMantissa.ofMantissaAndAccuracy m .exact >>> k).roundBit.toNat) * 2 ^ k + rest ∧
      rest < 2 ^ k ∧ ((ExtendedMantissa.ofMantissaAndAccuracy m .exact >>> k).stickyBit = false → rest = 0) := by
  induction k with
  | zero => exact ⟨0, by rw [Nat.pow_zero, Nat.mul_one]; rfl, Nat.one_pos, fun _ => rfl⟩
  | succ k ih =>
    obtain ⟨rest, hsum, hrest, hsticky⟩ := ih
    have hstep : ExtendedMantissa.ofMantissaAndAccuracy m .exact >>> (k + 1) =
        (ExtendedMantissa.ofMantissaAndAccuracy m .exact >>> k).shiftRightOne := rfl
    rw [hstep]
    generalize ExtendedMantissa.ofMantissaAndAccuracy m .exact >>> k = em at hsum hsticky ⊢
    obtain ⟨q, bit, sticky⟩ := em
    simp only [ExtendedMantissa.shiftRightOne] at hsum hsticky ⊢
    -- the last bit of what is left becomes the first one that is cut off
    have hbit : 2 * (q / 2) + (q % 2 != 0).toNat = q := by
      rcases Nat.mod_two_eq_zero_or_one q with hq | hq
      · rw [hq]
        exact Nat.mul_div_cancel' (Nat.dvd_of_mod_eq_zero hq)
      · have hdiv := Nat.div_add_mod q 2
        rw [hq] at hdiv ⊢
        exact hdiv
    refine ⟨bit.toNat * 2 ^ k + rest, ?_, ?_, fun h => ?_⟩
    · rw [hbit, hsum, Nat.pow_succ]
      ring
    · rw [Nat.pow_succ]
      have hle : bit.toNat * 2 ^ k ≤ 1 * 2 ^ k := Nat.mul_le_mul_right _ bit.toNat_le
      omega
    · rw [Bool.or_eq_false_iff] at h
      rw [h.1, hsticky h.2, Bool.toNat_false, Nat.zero_mul]

/-- A number is rounded by half a unit at most. -/
theorem roundedMantissa_bounds (m k : ℕ) :
    2 * m ≤ 2 * ((ExtendedMantissa.ofMantissaAndAccuracy m .exact >>> k).roundedMantissa * 2 ^ k) + 2 ^ k ∧
      2 * ((ExtendedMantissa.ofMantissaAndAccuracy m .exact >>> k).roundedMantissa * 2 ^ k) ≤ 2 * m + 2 ^ k := by
  obtain ⟨rest, hsum, hrest, hsticky⟩ := exists_rest_of_shift m k
  generalize ExtendedMantissa.ofMantissaAndAccuracy m .exact >>> k = em at hsum hsticky ⊢
  obtain ⟨q, bit, sticky⟩ := em
  have hunit : (q + 1) * 2 ^ k = q * 2 ^ k + 2 ^ k := Nat.succ_mul q (2 ^ k)
  have hscale : (2 * q + bit.toNat) * 2 ^ k = 2 * (q * 2 ^ k) + bit.toNat * 2 ^ k := by ring
  simp only at hsum hsticky
  rw [hscale] at hsum
  cases bit with
  | false =>
    -- less than half a unit is cut off
    have hround : ExtendedMantissa.roundedMantissa ⟨q, false, sticky⟩ = q := by cases sticky <;> rfl
    rw [hround]
    rw [Bool.toNat_false, Nat.zero_mul] at hsum
    omega
  | true =>
    rw [Bool.toNat_true, Nat.one_mul] at hsum
    cases sticky with
    | true =>
      have hround : ExtendedMantissa.roundedMantissa ⟨q, true, true⟩ = q + 1 := rfl
      rw [hround, hunit]
      omega
    | false =>
      -- exactly half a unit is cut off, and both neighbours are as close
      have hround : ExtendedMantissa.roundedMantissa ⟨q, true, false⟩ = q + q % 2 := rfl
      have hzero := hsticky rfl
      rcases Nat.mod_two_eq_zero_or_one q with hq | hq
      · rw [hround, hq, Nat.add_zero]
        omega
      · rw [hround, hq, hunit]
        omega

/-! ## §2 Values with the bits of the format -/

/-- A power of two is a whole number of smaller ones. -/
theorem two_zpow_shift {e t : ℤ} (h : e ≤ t) : (2 : ℚ) ^ t = 2 ^ (t - e).toNat * 2 ^ e := by
  rw [← zpow_natCast, ← zpow_add₀ two_ne_zero]
  congr 1
  omega

/-- A value that has the bits of the format. Its exponent is not too small, but may be too large. -/
def IsRepresentable (p : ℚ) : Prop := ∃ n u : ℤ, |n| < 2 ^ 53 ∧ -1074 ≤ u ∧ p = n * 2 ^ u

namespace IsRepresentable

variable {p q : ℚ}

theorem neg (h : IsRepresentable p) : IsRepresentable (-p) := by
  obtain ⟨n, u, hn, hu, rfl⟩ := h
  exact ⟨-n, u, by rwa [abs_neg], hu, by push_cast; ring⟩

theorem two_mul (h : IsRepresentable p) : IsRepresentable (2 * p) := by
  obtain ⟨n, u, hn, hu, rfl⟩ := h
  refine ⟨n, u + 1, hn, by omega, ?_⟩
  rw [zpow_add_one₀ two_ne_zero]
  ring

/-- A multiple of a power of two is a multiple of the smaller ones. -/
theorem exists_int_mul {u t : ℤ} (n : ℤ) (h : t ≤ u) : ∃ z : ℤ, (n : ℚ) * 2 ^ u = z * 2 ^ t := by
  refine ⟨n * 2 ^ (u - t).toNat, ?_⟩
  rw [two_zpow_shift h]
  push_cast
  ring

/-- Different multiples of a unit differ by one at least. -/
theorem unit_le_abs_sub {z w : ℤ} {t : ℚ} (ht : 0 < t) (h : z ≠ w) : t ≤ |z * t - w * t| := by
  have hone : (1 : ℚ) ≤ |((z - w : ℤ) : ℚ)| := by exact_mod_cast Int.one_le_abs (sub_ne_zero.2 h)
  calc t = 1 * t := (one_mul t).symm
    _ ≤ |((z - w : ℤ) : ℚ)| * t := mul_le_mul_of_nonneg_right hone ht.le
    _ = |z * t - w * t| := by rw [← sub_mul, abs_mul, abs_of_pos ht, Int.cast_sub]

/-- Values that are not the same differ by a share of their size. -/
theorem abs_le_of_ne (hp : IsRepresentable p) (hq : IsRepresentable q) (h : p ≠ q) : |p| ≤ 2 ^ 54 * |p - q| := by
  have hmagnitude : ∀ {n u : ℤ}, |n| < 2 ^ 53 → |(n : ℚ) * 2 ^ u| ≤ 2 ^ 53 * 2 ^ u := by
    intro n u hn
    have hcast : |(n : ℚ)| ≤ 2 ^ 53 := by exact_mod_cast hn.le
    rw [abs_mul, abs_of_pos (zpow_pos two_pos u : (0 : ℚ) < 2 ^ u)]
    exact mul_le_mul_of_nonneg_right hcast (zpow_pos two_pos u).le
  obtain ⟨n, u, hn, -, rfl⟩ := hp
  obtain ⟨m, t, hm, -, rfl⟩ := hq
  have hsizeₙ := hmagnitude (u := u) hn
  have hsizeₘ := hmagnitude (u := t) hm
  rcases le_total u t with hle | hle
  · -- both are multiples of the unit of the first
    obtain ⟨w, hw⟩ := exists_int_mul m hle
    have hunit := unit_le_abs_sub (zpow_pos two_pos u : (0 : ℚ) < 2 ^ u) (z := n) (w := w) (by
      rintro rfl
      exact h hw.symm)
    rw [← hw] at hunit
    have hunits := mul_le_mul_of_nonneg_left hunit (by positivity : (0 : ℚ) ≤ 2 ^ 53)
    exact hsizeₙ.trans (hunits.trans (mul_le_mul_of_nonneg_right (by norm_num) (abs_nonneg _)))
  · obtain ⟨w, hw⟩ := exists_int_mul n hle
    have hunit := unit_le_abs_sub (zpow_pos two_pos t : (0 : ℚ) < 2 ^ t) (z := w) (w := m) (by
      rintro rfl
      exact h hw)
    rw [← hw] at hunit
    have hunits := hsizeₘ.trans (mul_le_mul_of_nonneg_left hunit (by positivity : (0 : ℚ) ≤ 2 ^ 53))
    have htriangle := abs_sub_abs_le_abs_sub ((n : ℚ) * 2 ^ u) (m * 2 ^ t)
    have hnonneg := abs_nonneg ((n : ℚ) * 2 ^ u - m * 2 ^ t)
    linarith

end IsRepresentable

/-! ## §3 Closest values -/

/-- No value that has the bits of the format is closer to the exact one. -/
def IsClosest (r v : ℚ) : Prop := ∀ p, IsRepresentable p → |r - v| ≤ |p - v|

theorem isClosest_self (v : ℚ) : IsClosest v v := by
  intro p _
  rw [sub_self, abs_zero]
  exact abs_nonneg _

/-- Half a unit in the last place is the least distance, where the number has all the bits that the format has room
for. -/
theorem isClosest_of_half {r : ℕ} {v : ℚ} {t : ℤ} (hhalf : |r * 2 ^ t - v| ≤ 2 ^ t / 2)
    (hfull : t = -1074 ∨ 2 ^ 52 * 2 ^ t ≤ v) : IsClosest (r * 2 ^ t) v := by
  have hunit : (0 : ℚ) < 2 ^ t := zpow_pos two_pos t
  have hmultiple : ∀ z : ℤ, |r * 2 ^ t - v| ≤ |z * 2 ^ t - v| := by
    intro z
    by_cases hz : (r : ℤ) = z
    · rw [← hz, Int.cast_natCast]
    · have hapart := IsRepresentable.unit_le_abs_sub hunit hz
      rw [Int.cast_natCast] at hapart
      have htriangle := abs_sub_le ((r : ℚ) * 2 ^ t) v (z * 2 ^ t)
      rw [abs_sub_comm v] at htriangle
      linarith
  rintro p ⟨n, u, hn, hu, rfl⟩
  rcases le_or_gt t u with hle | hlt
  · obtain ⟨z, hz⟩ := IsRepresentable.exists_int_mul n hle
    rw [hz]
    exact hmultiple z
  · -- a smaller exponent does not reach the least number with all the bits, which is a multiple
    have hlarge := hfull.resolve_left (by omega)
    have hpow : (2 : ℚ) ^ u * 2 ≤ 2 ^ t := by
      rw [← zpow_add_one₀ two_ne_zero]
      exact zpow_le_zpow_right₀ one_le_two hlt
    have hcast : (n : ℚ) ≤ 2 ^ 53 := by exact_mod_cast (le_abs_self n).trans hn.le
    have hbelow : (n : ℚ) * 2 ^ u ≤ 2 ^ 52 * 2 ^ t := by
      have hle := mul_le_mul_of_nonneg_right hcast (zpow_pos two_pos u).le
      linarith
    have hleast := hmultiple (2 ^ 52)
    rw [Int.cast_pow, Int.cast_ofNat, abs_sub_comm ((2 : ℚ) ^ 52 * 2 ^ t),
      abs_of_nonneg (sub_nonneg.2 hlarge)] at hleast
    rw [abs_sub_comm ((n : ℚ) * 2 ^ u), abs_of_nonneg (sub_nonneg.2 (hbelow.trans hlarge))]
    linarith

namespace IsClosest

variable {p r v : ℚ}

theorem neg (h : IsClosest r v) : IsClosest (-r) (-v) := by
  intro p hp
  have hflip : ∀ a : ℚ, |-a - -v| = |a - v| := fun a => by rw [neg_sub_neg, abs_sub_comm]
  rw [hflip, ← neg_neg p, hflip]
  exact h (-p) hp.neg

/-- A value that has the bits of the format is kept. -/
theorem eq_of_isRepresentable (h : IsClosest r v) (hv : IsRepresentable v) : r = v := by
  have hclosest := h v hv
  rw [sub_self, abs_zero] at hclosest
  exact sub_eq_zero.1 (abs_nonpos_iff.1 hclosest)

/-- What is not below a value that has the bits of the format is not rounded below it. -/
theorem le_of_le (h : IsClosest r v) (hp : IsRepresentable p) (hle : p ≤ v) : p ≤ r := by
  by_contra hlt
  have hclosest := h p hp
  rw [abs_of_nonpos (by linarith), abs_of_nonpos (by linarith)] at hclosest
  linarith

/-- What is much smaller than a number is lost in it. -/
theorem eq_of_small (h : IsClosest r v) (hr : IsRepresentable r) (hp : IsRepresentable p)
    (hsmall : 2 ^ 55 * |p - v| < |p|) : r = p := by
  by_contra hne
  have hapart := hp.abs_le_of_ne hr (Ne.symm hne)
  have hclosest := h p hp
  have htriangle := abs_sub_le p v r
  rw [abs_sub_comm v r] at htriangle
  linarith

end IsClosest

end FuzzyInference.Decimal
