import FuzzyInference.Proofs.Decimal.Closest
import FuzzyInference.Proofs.Decimal.Unpacked
import FuzzyInference.Proofs.Totals

/-!
# Rounding, part by part

The result of an operation on finite numbers is rounded to a significand that has the bits of the format, and may
miss the exact one by a unit in the last place. Above the smallest exponent that is a tiny share of the result, and
differences never fall below it, so that a difference is off by such a share only.

The plan of this module:

* numbers with given parts;
* rounding, as far as it moves a value;
* the values of parts, and their order;
* differences, products and quotients of parts.

## Main statements

* `Decimal.ofFloat_pack`: the parts of a packed number
* `Decimal.exists_roundWithAccuracy`, `Decimal.exists_parts_of_round`: what rounding does to a value
* `Decimal.compare_unpacked`: finite numbers compare like their values
* `Decimal.exists_parts_sub`, `Decimal.exists_parts_mul`, `Decimal.exists_parts_div`: rounded results
-/

namespace FuzzyInference

open Float.Model UnpackedFloat
open Scalar

namespace Decimal

/-! ## §1 Parts -/

/-- The bits of a magnitude are taken apart into its significand and exponent. -/
theorem ofFloat_floatOfBits (negative : Bool) {m : ℕ} {e : ℤ} (h : IsCanonical m e) :
    Binary.ofFloat (floatOfBits negative (magnitudeBits m e)) = .finite negative m e := by
  have h63 : twoTo 63 = 9223372036854775808 := rfl
  have h52 : twoTo 52 = 4503599627370496 := rfl
  have h11 : twoTo 11 = 2048 := rfl
  have hinf : infinityBits = 9218868437227405312 := rfl
  obtain ⟨hlt, hleast, hgreatest, hnormal⟩ := h
  have hmagnitude : magnitudeBits m e = (e + 1074).toNat * 4503599627370496 + m := rfl
  have hbits := toNat_toBits_floatOfBits negative (magnitudeBits m e)
  unfold Binary.ofFloat
  dsimp only
  rw [h63, h52, h11]
  rw [h63, hinf] at hbits
  generalize (floatOfBits negative (magnitudeBits m e)).toBits.toNat = bits at hbits ⊢
  rw [hmagnitude] at hbits
  -- the sign is the uppermost bit, and the magnitude is below the bits of the infinities
  have hsum : (e + 1074).toNat * 4503599627370496 + m < 9218868437227405312 := by omega
  rw [min_eq_left hsum.le] at hbits
  obtain ⟨hsign, hexponent, hfraction⟩ : decide (9223372036854775808 ≤ bits) = negative ∧
      bits / 4503599627370496 % 2048 = (e + 1074).toNat + m / 4503599627370496 ∧
      bits % 4503599627370496 = m % 4503599627370496 := by
    cases negative with
    | false =>
      simp only [Bool.false_eq_true, if_false, Nat.zero_add] at hbits
      refine ⟨decide_eq_false ?_, ?_, ?_⟩
      · omega
      · omega
      · omega
    | true =>
      simp only [if_true] at hbits
      refine ⟨decide_eq_true ?_, ?_, ?_⟩
      · omega
      · omega
      · omega
  rw [hsign, hexponent, hfraction, if_neg (show ¬(e + 1074).toNat + m / 4503599627370496 = 2047 by omega)]
  by_cases hsmall : m < 4503599627370496
  · have he : e = -1074 := by omega
    subst he
    rw [Nat.div_eq_of_lt hsmall, Nat.mod_eq_of_lt hsmall, if_pos (show (-1074 + 1074 : ℤ).toNat + 0 = 0 from rfl)]
  · have hquotient : m / 4503599627370496 = 1 := by omega
    have hremainder : 4503599627370496 + m % 4503599627370496 = m := by omega
    have hvalue : (((e + 1074).toNat + 1 : ℕ) : ℤ) - 1075 = e := by omega
    rw [hquotient, if_neg (Nat.succ_ne_zero _), hremainder, hvalue]

/-- The parts of a packed number are those that were packed. -/
theorem ofFloat_pack {negative : Bool} {m : ℕ} {e : ℤ} (h : IsCanonical m e) :
    Binary.ofFloat (Float.ofModel (Float.Model.pack (Binary.finite negative m e).unpacked)) =
      .finite negative m e := by
  have hparts := ofFloat_floatOfBits negative h
  rw [← hparts, ← unpack_eq_unpacked, Float.ofModel_pack_unpack, hparts]

/-! ## §2 Rounding -/

/-- The exponent of the last place that is kept of a significand. -/
def unitOf (m : ℕ) (e : ℤ) : ℤ := max (m.log2 + e - 52) (-1074)

theorem shift_eq {m : ℕ} {e : ℤ} (he : e ≤ unitOf m e) (a : Accuracy) :
    shiftToTargetExponent Format.binary64 m e a =
      (ExtendedMantissa.ofMantissaAndAccuracy m a >>> (unitOf m e - e).toNat, unitOf m e) := by
  unfold shiftToTargetExponent shiftToExponent totalExponent
  rw [targetExponent_eq, show max ((m.log2 : ℤ) + 1 + e - 53) (-1074) = unitOf m e by unfold unitOf; omega]
  dsimp only
  rw [show e + ((unitOf m e - e).toNat : ℤ) = unitOf m e by omega]

/-- What rounding makes of a number: a significand with the bits of the format, and an exponent that is not too small,
but may be too large. -/
structure FitsFormat (n : ℕ) (u : ℤ) : Prop where
  lt : n < 2 ^ 53
  least : -1074 ≤ u
  normal : 2 ^ 52 ≤ n ∨ u = -1074

/-- A significand that has no more bits than the format, or one more by a carry, is not rounded again. -/
theorem exists_shift_carried {n : ℕ} {u : ℤ} (hn : n ≤ 2 ^ 53) (hu : -1074 ≤ u) (hnormal : 2 ^ 52 ≤ n ∨ u = -1074) :
    ∃ n' u', (shiftToTargetExponent Format.binary64 n u .exact).1.mantissa = n' ∧
      (shiftToTargetExponent Format.binary64 n u .exact).2 = u' ∧ FitsFormat n' u' ∧
      (n' : ℚ) * 2 ^ u' = n * 2 ^ u := by
  rcases hn.eq_or_lt with rfl | hlt
  · have hlog : (2 ^ 53 : ℕ).log2 = 52 + 1 := rfl
    rw [shiftToTargetExponent_of_log2 hlog hu, mantissa_shiftRight, mantissa_ofMantissaAndAccuracy]
    refine ⟨2 ^ 52, u + 1, rfl, rfl, ⟨by norm_num, by omega, .inl le_rfl⟩, ?_⟩
    rw [zpow_add₀ two_ne_zero]
    push_cast
    ring
  · have hlog : n.log2 ≤ 52 := by
      rcases Nat.eq_zero_or_pos n with rfl | hpos
      · exact Nat.zero_le 52
      · exact Nat.le_of_lt_succ ((Nat.log2_lt hpos.ne').2 hlt)
    have hunit : max ((n.log2 : ℤ) + 1 + u - 53) (-1074) ≤ u := by omega
    refine ⟨n, u, ?_, ?_, ⟨hlt, hu, hnormal⟩, rfl⟩
    · rw [mantissa_shiftToTargetExponent, Int.toNat_of_nonpos (by omega), Nat.pow_zero, Nat.div_one]
    · rw [snd_shiftToTargetExponent, max_eq_left hunit]

/-- What is left of a significand has the bits of the format, or the exponent is the least one. -/
theorem cut_fits {m : ℕ} {e : ℤ} (he : e ≤ unitOf m e) :
    m / 2 ^ (unitOf m e - e).toNat < 2 ^ 53 ∧ (2 ^ 52 ≤ m / 2 ^ (unitOf m e - e).toNat ∨ unitOf m e = -1074) := by
  have hself := @Nat.lt_log2_self m
  have hunit : unitOf m e = max (m.log2 + e - 52) (-1074) := rfl
  obtain ⟨k, hk⟩ : ∃ k, k = (unitOf m e - e).toNat := ⟨_, rfl⟩
  rw [← hk]
  constructor
  · rw [Nat.div_lt_iff_lt_mul (Nat.two_pow_pos k), ← Nat.pow_add]
    exact hself.trans_le (Nat.pow_le_pow_right (by decide) (by omega))
  · by_cases hleast : unitOf m e = -1074
    · exact .inr hleast
    · have hm : m ≠ 0 := by
        rintro rfl
        rw [Nat.log2_zero] at hunit
        omega
      rw [Nat.le_div_iff_mul_le (Nat.two_pow_pos k), ← Nat.pow_add, show 52 + k = m.log2 by omega]
      exact .inl (Nat.log2_self_le hm)

/-- A whole part that is one too large at most lies within a unit of everything that has the significand. -/
theorem abs_cut_sub_le {m k r : ℕ} {q : ℚ} (hlow : m ≤ q) (hhigh : q < m + 1) (hr : m / 2 ^ k ≤ r)
    (hr' : r ≤ m / 2 ^ k + 1) : |(r : ℚ) * 2 ^ k - q| ≤ 2 ^ k := by
  have hbelow : (m / 2 ^ k : ℕ) * (2 : ℚ) ^ k ≤ m := by exact_mod_cast Nat.div_mul_le_self m (2 ^ k)
  have hbeyond : (m : ℚ) + 1 ≤ ((m / 2 ^ k : ℕ) + 1) * 2 ^ k := by
    have hnext : m + 1 ≤ (m / 2 ^ k + 1) * 2 ^ k := by
      rw [Nat.succ_mul]
      exact Nat.lt_div_mul_add (Nat.two_pow_pos k)
    exact_mod_cast hnext
  have hpow : (0 : ℚ) < 2 ^ k := by positivity
  have hleast : ((m / 2 ^ k : ℕ) : ℚ) ≤ r := by exact_mod_cast hr
  have hmost : (r : ℚ) ≤ (m / 2 ^ k : ℕ) + 1 := by exact_mod_cast hr'
  rw [abs_le]
  constructor
  · nlinarith
  · nlinarith

/-- Exact significands are rounded by half a unit, and where the exponent is not the least one, they have all the bits
that there is room for. -/
theorem isClosest_of_shift {m r : ℕ} {e : ℤ} (he : e ≤ unitOf m e)
    (hr : (ExtendedMantissa.ofMantissaAndAccuracy m .exact >>> (unitOf m e - e).toNat).roundedMantissa = r) :
    IsClosest (r * 2 ^ unitOf m e) (m * 2 ^ e) := by
  have hunit : unitOf m e = max (m.log2 + e - 52) (-1074) := rfl
  obtain ⟨hlow, hhigh⟩ := roundedMantissa_bounds m (unitOf m e - e).toNat
  rw [hr] at hlow hhigh
  obtain ⟨k, hk⟩ : ∃ k, k = (unitOf m e - e).toNat := ⟨_, rfl⟩
  rw [← hk] at hlow hhigh
  have hscale : (2 : ℚ) ^ unitOf m e = 2 ^ k * 2 ^ e := by rw [hk, two_zpow_shift he]
  have hpow : (0 : ℚ) < 2 ^ e := by positivity
  refine isClosest_of_half ?_ ?_
  · have hlow' : 2 * (m : ℚ) ≤ 2 * (r * 2 ^ k) + 2 ^ k := by exact_mod_cast hlow
    have hhigh' : 2 * ((r : ℚ) * 2 ^ k) ≤ 2 * m + 2 ^ k := by exact_mod_cast hhigh
    have hhalf : |(r : ℚ) * 2 ^ k - m| ≤ 2 ^ k / 2 := abs_le.2 ⟨by linarith, by linarith⟩
    calc |(r : ℚ) * 2 ^ unitOf m e - m * 2 ^ e| = |(r : ℚ) * 2 ^ k - m| * 2 ^ e := by
          rw [hscale, ← mul_assoc, ← sub_mul, abs_mul, abs_of_pos hpow]
      _ ≤ 2 ^ k / 2 * 2 ^ e := mul_le_mul_of_nonneg_right hhalf hpow.le
      _ = 2 ^ unitOf m e / 2 := by rw [hscale]; ring
  · by_cases hleast : unitOf m e = -1074
    · exact .inl hleast
    · right
      have hm : m ≠ 0 := by
        rintro rfl
        rw [Nat.log2_zero] at hunit
        omega
      have hself : (2 : ℚ) ^ m.log2 ≤ m := by exact_mod_cast Nat.log2_self_le hm
      calc (2 : ℚ) ^ 52 * 2 ^ unitOf m e = 2 ^ m.log2 * 2 ^ e := by
            rw [← zpow_natCast, ← zpow_natCast, ← zpow_add₀ two_ne_zero, ← zpow_add₀ two_ne_zero]
            congr 1
            omega
        _ ≤ m * 2 ^ e := mul_le_mul_of_nonneg_right hself hpow.le

/-- A significand and what follows it are rounded to a number that has the bits of the format. Its value misses the
exact one by a unit in the last place at most. It is the exact one where no bits are lost, and a closest one where
nothing follows. -/
theorem exists_roundWithAccuracy (negative : Bool) {m : ℕ} {e : ℤ} {a : Accuracy} {q : ℚ} (hlow : m ≤ q)
    (hhigh : q < m + 1) (he : e ≤ unitOf m e) :
    ∃ n u, roundWithAccuracy Format.binary64 (signOf negative) m e a = (Binary.finite negative n u).unpacked ∧
      FitsFormat n u ∧ |(n : ℚ) * 2 ^ u - q * 2 ^ e| ≤ 2 ^ unitOf m e ∧
      (a = .exact → e = unitOf m e → (n : ℚ) * 2 ^ u = m * 2 ^ e) ∧
      (a = .exact → IsClosest (n * 2 ^ u) (m * 2 ^ e)) := by
  have hleast : -1074 ≤ unitOf m e := le_max_right _ _
  have hshift := shift_eq he a
  obtain ⟨hcut, hfull⟩ := cut_fits he
  obtain ⟨k, hk⟩ : ∃ k, k = (unitOf m e - e).toNat := ⟨_, rfl⟩
  rw [← hk] at hshift hcut hfull
  have hscale : (2 : ℚ) ^ unitOf m e = 2 ^ k * 2 ^ e := by rw [hk, two_zpow_shift he]
  obtain ⟨r, hr⟩ : ∃ r, (ExtendedMantissa.ofMantissaAndAccuracy m a >>> k).roundedMantissa = r := ⟨_, rfl⟩
  have hround : m / 2 ^ k ≤ r ∧ r ≤ m / 2 ^ k + 1 := by
    rw [← hr, ExtendedMantissa.roundedMantissa, mantissa_shiftRight, mantissa_ofMantissaAndAccuracy]
    exact ⟨le_roundToNearestEven _ _, roundToNearestEven_le _ _⟩
  obtain ⟨n, u, hn, hu, hrounded, hvalue⟩ :=
    exists_shift_carried (n := r) (u := unitOf m e) (by omega) hleast (by omega)
  refine ⟨n, u, ?_, hrounded, ?_, ?_, ?_⟩
  · unfold roundWithAccuracy
    rw [hshift]
    simp only [hr, hn, hu, Binary.unpacked]
    rcases Nat.eq_zero_or_pos n with rfl | hpos
    · rfl
    · rw [dif_neg hpos.ne', dif_pos hpos]
  · have hpow : (0 : ℚ) < 2 ^ e := by positivity
    calc |(n : ℚ) * 2 ^ u - q * 2 ^ e| = |(r : ℚ) * 2 ^ k - q| * 2 ^ e := by
          rw [hvalue, hscale, ← mul_assoc, ← sub_mul, abs_mul, abs_of_pos hpow]
      _ ≤ 2 ^ k * 2 ^ e := mul_le_mul_of_nonneg_right (abs_cut_sub_le hlow hhigh hround.1 hround.2) hpow.le
      _ = 2 ^ unitOf m e := hscale.symm
  · rintro rfl hexact
    have hzero : k = 0 := by omega
    have hsame : r = m := by
      rw [← hr, hzero]
      rfl
    rw [hvalue, hsame, ← hexact]
  · rintro rfl
    rw [hvalue]
    exact isClosest_of_shift he (hk ▸ hr)

/-- A unit in the last place is a small share of the number, or the least unit. -/
theorem two_zpow_unitOf_le {m : ℕ} {e : ℤ} {q : ℚ} (hlow : m ≤ q) (he : e ≤ unitOf m e) :
    (2 : ℚ) ^ unitOf m e ≤ q * 2 ^ e / 2 ^ 52 ∨ unitOf m e = -1074 := by
  by_cases hleast : unitOf m e = -1074
  · exact .inr hleast
  · left
    have hunit : unitOf m e = m.log2 + e - 52 := by
      unfold unitOf at hleast ⊢
      omega
    have hm : m ≠ 0 := by
      rintro rfl
      rw [Nat.log2_zero] at hunit
      omega
    have hself : (2 : ℚ) ^ m.log2 ≤ q := by
      have hnat : ((2 ^ m.log2 : ℕ) : ℚ) ≤ m := by exact_mod_cast Nat.log2_self_le hm
      rw [Nat.cast_pow, Nat.cast_ofNat] at hnat
      exact hnat.trans hlow
    rw [hunit, zpow_sub₀ two_ne_zero, zpow_add₀ two_ne_zero, zpow_natCast]
    exact div_le_div_of_nonneg_right (mul_le_mul_of_nonneg_right hself (by positivity)) (by positivity)

/-- The bound below which results are not too large, even after they are rounded. -/
def sizeBound : ℚ := 2 ^ (1023 : ℤ)

theorem two_pow_le_sizeBound : 2 ^ 64 ≤ sizeBound := by
  have h : (2 : ℚ) ^ (64 : ℤ) ≤ 2 ^ (1023 : ℤ) := zpow_le_zpow_right₀ one_le_two (by norm_num)
  calc (2 : ℚ) ^ 64 = 2 ^ (64 : ℤ) := by norm_num
    _ ≤ sizeBound := h

theorem four_le_sizeBound : 4 ≤ sizeBound := by
  have h := two_pow_le_sizeBound
  norm_num at h
  linarith

/-- The least unit in the last place. -/
def leastUnit : ℚ := 2 ^ (-1074 : ℤ)

theorem leastUnit_pos : 0 < leastUnit := zpow_pos two_pos _

theorem leastUnit_le_one : leastUnit ≤ 1 := zpow_le_one_of_nonpos₀ one_le_two (by norm_num)

theorem IsCanonical.fitsFormat {n : ℕ} {u : ℤ} (h : IsCanonical n u) : FitsFormat n u := ⟨h.lt, h.least, h.normal⟩

theorem isCanonical_zero : IsCanonical 0 (-1074) := ⟨by norm_num, le_rfl, by norm_num, .inr rfl⟩

/-- Bits of zero may follow. -/
theorem log2_mul_two_pow {d : ℕ} (hd : 0 < d) (j : ℕ) : (d * 2 ^ j).log2 = d.log2 + j := by
  rw [Nat.log2_eq_iff (by positivity)]
  have hlow := Nat.log2_self_le hd.ne'
  have hhigh := @Nat.lt_log2_self d
  constructor
  · rw [Nat.pow_add]
    exact Nat.mul_le_mul_right _ hlow
  · rw [Nat.add_right_comm, Nat.pow_add]
    exact Nat.mul_lt_mul_of_pos_right hhigh (Nat.two_pow_pos j)

theorem mul_two_pow_unit (d j : ℕ) (g : ℤ) : ((d * 2 ^ j : ℕ) : ℚ) * 2 ^ (g - j) = d * 2 ^ g := by
  rw [zpow_sub₀ two_ne_zero, zpow_natCast]
  push_cast
  field_simp

/-- A significand with the bits of the format has the value of one with all the bits. -/
theorem exists_isCanonical {n : ℕ} {u : ℤ} (hn : n < 2 ^ 53) (hleast : -1074 ≤ u) (hgreat : u ≤ 971) :
    ∃ m e, IsCanonical m e ∧ (m : ℚ) * 2 ^ e = n * 2 ^ u := by
  rcases Nat.eq_zero_or_pos n with rfl | hpos
  · exact ⟨0, -1074, isCanonical_zero, by rw [Nat.cast_zero, zero_mul, zero_mul]⟩
  · have hlog : n.log2 ≤ 52 := Nat.le_of_lt_succ ((Nat.log2_lt hpos.ne').2 hn)
    obtain ⟨j, hj⟩ : ∃ j, j = (u - unitOf n u).toNat := ⟨_, rfl⟩
    have hunit : unitOf n u = max (n.log2 + u - 52) (-1074) := rfl
    have hself := Nat.log2_self_le hpos.ne'
    have hlt : n * 2 ^ j < 2 ^ 53 := by
      rw [← Nat.log2_lt (by positivity), log2_mul_two_pow hpos]
      omega
    have hnormal : 2 ^ 52 ≤ n * 2 ^ j ∨ u - j = -1074 := by
      by_cases hsmall : n.log2 + u - 52 ≤ -1074
      · exact .inr (by omega)
      · left
        calc 2 ^ 52 = 2 ^ n.log2 * 2 ^ j := by
              rw [← Nat.pow_add]
              congr 1
              omega
          _ ≤ n * 2 ^ j := Nat.mul_le_mul_right _ hself
    exact ⟨n * 2 ^ j, u - j, ⟨hlt, by omega, by omega, hnormal⟩, mul_two_pow_unit n j u⟩

/-- Rounded numbers that are too large are twice the bound at least. -/
theorem FitsFormat.cases {n : ℕ} {u : ℤ} (h : FitsFormat n u) :
    IsCanonical n u ∨ 972 ≤ u ∧ 0 < n ∧ 2 * sizeBound ≤ (n : ℚ) * 2 ^ u := by
  by_cases hgreat : u ≤ 971
  · exact .inl ⟨h.lt, h.least, hgreat, h.normal⟩
  · have hnormal := h.normal.resolve_right (by omega)
    have hn : (2 : ℚ) ^ (52 : ℤ) ≤ n := by
      have hcast : ((2 ^ 52 : ℕ) : ℚ) ≤ n := by exact_mod_cast hnormal
      exact_mod_cast hcast
    have hpow : (2 : ℚ) ^ (972 : ℤ) ≤ 2 ^ u := zpow_le_zpow_right₀ one_le_two (by omega)
    refine .inr ⟨by omega, by omega, ?_⟩
    calc 2 * sizeBound = (2 : ℚ) ^ (52 : ℤ) * 2 ^ (972 : ℤ) := by
          rw [sizeBound, ← zpow_one_add₀ two_ne_zero, ← zpow_add₀ two_ne_zero]
          rfl
      _ ≤ (n : ℚ) * 2 ^ u := mul_le_mul hn hpow (by positivity) (by positivity)

/-- Rounding moves a value by a small share of it, or by the least unit, which plays no part where the exponent is
that of the format before, and an exact value to a closest one. -/
theorem exists_parts_of_round (negative : Bool) {m : ℕ} {e : ℤ} {a : Accuracy} {q : ℚ} (hlow : m ≤ q)
    (hhigh : q < m + 1) (he : e ≤ unitOf m e) :
    ∃ n u, roundWithAccuracy Format.binary64 (signOf negative) m e a = (Binary.finite negative n u).unpacked ∧
      FitsFormat n u ∧ |(n : ℚ) * 2 ^ u - q * 2 ^ e| ≤ q * 2 ^ e / 2 ^ 52 + leastUnit ∧
      (a = .exact → q = m → -1074 ≤ e → |(n : ℚ) * 2 ^ u - q * 2 ^ e| ≤ q * 2 ^ e / 2 ^ 52) ∧
      (a = .exact → IsClosest (n * 2 ^ u) (m * 2 ^ e)) := by
  have hq : 0 ≤ q := m.cast_nonneg.trans hlow
  have hshare : 0 ≤ q * 2 ^ e / 2 ^ 52 := by positivity
  have hleast := leastUnit_pos
  obtain ⟨n, u, hround, hrounded, herror, hexact, hclosest⟩ :=
    exists_roundWithAccuracy negative hlow hhigh he (a := a)
  have hunit := two_zpow_unitOf_le hlow he
  refine ⟨n, u, hround, hrounded, ?_, fun hsame heq hleast => ?_, hclosest⟩
  · rcases hunit with hle | heq
    · linarith
    · rw [heq, ← leastUnit] at herror
      linarith
  · rcases hunit with hle | hequal
    · exact herror.trans hle
    · -- at the least unit no bits are lost
      rw [hexact hsame (by omega), heq, sub_self, abs_zero, ← heq]
      exact hshare

/-- A whole number of units that are not too small is rounded by a small share of it, to a closest value. -/
theorem exists_round_unit (negative : Bool) {d : ℕ} {g : ℤ} (hd : 0 < d) (hg : -1074 ≤ g) :
    ∃ n u, UnpackedFloat.round Format.binary64 (signOf negative) d g = (Binary.finite negative n u).unpacked ∧
      FitsFormat n u ∧ |(n : ℚ) * 2 ^ u - d * 2 ^ g| ≤ d * 2 ^ g / 2 ^ 52 ∧ IsClosest (n * 2 ^ u) (d * 2 ^ g) := by
  obtain ⟨j, hj⟩ : ∃ j, j = (g - unitOf d g).toNat := ⟨_, rfl⟩
  have hunit : unitOf d g = max (d.log2 + g - 52) (-1074) := rfl
  have hunit' : unitOf (d * 2 ^ j) (g - j) = unitOf d g := by
    unfold unitOf
    rw [log2_mul_two_pow hd]
    push_cast
    congr 1
    omega
  have hdecrease : decreaseExponent d g (Format.binary64.targetExponent (totalExponent d g)) =
      (d * 2 ^ j, g - j) := by
    unfold decreaseExponent totalExponent
    rw [targetExponent_eq, show max ((d.log2 : ℤ) + 1 + g - 53) (-1074) = unitOf d g by rw [hunit]; omega]
    dsimp only
    rw [← hj, Nat.shiftLeft_eq]
  obtain ⟨n, u, hround, hrounded, -, herror, hclosest⟩ := exists_parts_of_round negative (m := d * 2 ^ j) (e := g - j)
    (a := .exact) (q := (d * 2 ^ j : ℕ)) le_rfl (lt_add_one _) (by rw [hunit']; omega)
  refine ⟨n, u, ?_, hrounded, ?_, ?_⟩
  · unfold UnpackedFloat.round
    dsimp only
    rw [hdecrease]
    exact hround
  · have hshare := herror rfl rfl (by omega)
    rwa [mul_two_pow_unit] at hshare
  · have hclosest := hclosest rfl
    rwa [mul_two_pow_unit] at hclosest

/-! ## §3 Values -/

/-- The value of a finite number. -/
def Binary.value : Binary → ℚ
  | .finite negative m e => if negative then -(m * 2 ^ e) else m * 2 ^ e
  | _ => 0

/-- Magnitudes with the bits of the format are ordered by their exponents first. -/
theorem magnitude_lt {m n : ℕ} {e f : ℤ} (hm : IsCanonical m e) (hn : IsCanonical n f) (h : e < f) :
    (m : ℚ) * 2 ^ e < n * 2 ^ f := by
  have hlt : (m : ℚ) < 2 ^ 53 := by exact_mod_cast hm.lt
  have hle : (2 : ℚ) ^ 52 ≤ n := by
    have hleast := hm.least
    exact_mod_cast hn.normal.resolve_right (by omega)
  have hpow : (0 : ℚ) < 2 ^ e := by positivity
  have hstep : (2 : ℚ) ^ e * 2 ≤ 2 ^ f := by
    rw [← zpow_add_one₀ two_ne_zero]
    exact zpow_le_zpow_right₀ one_le_two h
  calc (m : ℚ) * 2 ^ e < 2 ^ 53 * 2 ^ e := mul_lt_mul_of_pos_right hlt hpow
    _ = 2 ^ 52 * (2 ^ e * 2) := by ring
    _ ≤ n * 2 ^ f := mul_le_mul hle hstep (by positivity) (by positivity)

theorem compare_magnitude {m n : ℕ} {e f : ℤ} (hm : IsCanonical m e) (hn : IsCanonical n f) :
    (compare e f).then (compare m n) = compare ((m : ℚ) * 2 ^ e) (n * 2 ^ f) := by
  rcases lt_trichotomy e f with hlt | rfl | hgt
  · rw [compare_lt_iff_lt.2 hlt, compare_lt_iff_lt.2 (magnitude_lt hm hn hlt)]
    rfl
  · have hpow : (0 : ℚ) < 2 ^ e := by positivity
    rw [compare_eq_iff_eq.2 rfl]
    rcases lt_trichotomy m n with hlt | rfl | hgt
    · have hcast : (m : ℚ) < n := by exact_mod_cast hlt
      rw [compare_lt_iff_lt.2 hlt, compare_lt_iff_lt.2 (mul_lt_mul_of_pos_right hcast hpow)]
      rfl
    · rw [compare_eq_iff_eq.2 rfl, compare_eq_iff_eq.2 rfl]
      rfl
    · have hcast : (n : ℚ) < m := by exact_mod_cast hgt
      rw [compare_gt_iff_gt.2 hgt, compare_gt_iff_gt.2 (mul_lt_mul_of_pos_right hcast hpow)]
      rfl
  · rw [compare_gt_iff_gt.2 hgt, compare_gt_iff_gt.2 (magnitude_lt hn hm hgt)]
    rfl

/-- Opposites compare the other way round. -/
theorem compare_neg_neg (a b : ℚ) : compare (-a) (-b) = (compare a b).swap := by
  rcases lt_trichotomy a b with hlt | rfl | hgt
  · rw [compare_lt_iff_lt.2 hlt, compare_gt_iff_gt.2 (neg_lt_neg hlt)]
    rfl
  · rw [compare_eq_iff_eq.2 rfl, compare_eq_iff_eq.2 rfl]
    rfl
  · rw [compare_gt_iff_gt.2 hgt, compare_lt_iff_lt.2 (neg_lt_neg hgt)]
    rfl

/-- Finite numbers compare like their values. -/
theorem compare_unpacked {negative negative' : Bool} {m n : ℕ} {e f : ℤ} (hm : IsCanonical m e)
    (hn : IsCanonical n f) :
    (Binary.finite negative m e).unpacked.compare (Binary.finite negative' n f).unpacked =
      some (compare (Binary.finite negative m e).value (Binary.finite negative' n f).value) := by
  have hmagnitude := compare_magnitude hm hn
  have hzero : ∀ g : ℤ, ((0 : ℕ) : ℚ) * 2 ^ g = 0 := fun g => by simp
  have hpositive : ∀ {k : ℕ} {g : ℤ}, 0 < k → (0 : ℚ) < k * 2 ^ g := by
    intro k g hk
    have hcast : (0 : ℚ) < k := by exact_mod_cast hk
    positivity
  unfold Binary.value
  rcases Nat.eq_zero_or_pos m with rfl | hm₀
  · rcases Nat.eq_zero_or_pos n with rfl | hn₀
    · simp only [hzero, neg_zero, ite_self, compare_eq_iff_eq.2]
      rfl
    · have hb := hpositive (g := f) hn₀
      rw [Binary.unpacked_of_pos negative' hn₀]
      simp only [hzero, neg_zero, ite_self]
      cases negative' with
      | false => exact congrArg some (compare_lt_iff_lt.2 hb).symm
      | true => exact congrArg some (compare_gt_iff_gt.2 (neg_neg_of_pos hb)).symm
  · have ha := hpositive (g := e) hm₀
    rw [Binary.unpacked_of_pos negative hm₀]
    rcases Nat.eq_zero_or_pos n with rfl | hn₀
    · simp only [hzero, neg_zero, ite_self]
      cases negative with
      | false => exact congrArg some (compare_gt_iff_gt.2 ha).symm
      | true => exact congrArg some (compare_lt_iff_lt.2 (neg_neg_of_pos ha)).symm
    · have hb := hpositive (g := f) hn₀
      rw [Binary.unpacked_of_pos negative' hn₀]
      cases negative with
      | false =>
        cases negative' with
        | false => exact congrArg some hmagnitude
        | true => exact congrArg some (compare_gt_iff_gt.2 ((neg_neg_of_pos hb).trans ha)).symm
      | true =>
        cases negative' with
        | false => exact congrArg some (compare_lt_iff_lt.2 ((neg_neg_of_pos ha).trans hb)).symm
        | true =>
          have hswap := compare_neg_neg (m * 2 ^ e) (n * 2 ^ f)
          rw [← hmagnitude] at hswap
          exact congrArg some hswap.symm

/-! ## §4 Arithmetic -/

theorem Binary.abs_signed_sub (negative : Bool) (a b : ℚ) :
    |(if negative then -a else a) - (if negative then -b else b)| = |a - b| := by
  cases negative with
  | false => rfl
  | true =>
    simp only [if_true]
    rw [neg_sub_neg, abs_sub_comm]

theorem Binary.value_not (negative : Bool) (m : ℕ) (e : ℤ) :
    (Binary.finite (!negative) m e).value = -(Binary.finite negative m e).value := by
  cases negative with
  | false => rfl
  | true => exact (neg_neg _).symm

theorem Binary.abs_value (negative : Bool) (m : ℕ) (e : ℤ) : |(Binary.finite negative m e).value| = m * 2 ^ e := by
  have hmagnitude : (0 : ℚ) ≤ m * 2 ^ e := by positivity
  cases negative with
  | false => exact abs_of_nonneg hmagnitude
  | true => exact (abs_neg _).trans (abs_of_nonneg hmagnitude)

/-- Units that are counted with a sign are rounded by a small share, to a closest value. -/
theorem exists_normalize {d g : ℤ} (hg : -1074 ≤ g) :
    ∃ negative n u,
      UnpackedFloat.normalize Format.binary64 d g .positive = (Binary.finite negative n u).unpacked ∧
      FitsFormat n u ∧ |(Binary.finite negative n u).value - d * 2 ^ g| ≤ |(d : ℚ) * 2 ^ g| / 2 ^ 52 ∧
      IsClosest (Binary.finite negative n u).value (d * 2 ^ g) := by
  rcases lt_trichotomy d 0 with hneg | rfl | hpos
  · obtain ⟨k, rfl⟩ : ∃ k : ℕ, d = -k := ⟨d.natAbs, by omega⟩
    have hk : 0 < k := by omega
    have habs : |((-(k : ℤ) : ℤ) : ℚ) * 2 ^ g| = k * 2 ^ g := by
      rw [Int.cast_neg, Int.cast_natCast, neg_mul, abs_neg, abs_of_nonneg (by positivity)]
    obtain ⟨n, u, hround, hrounded, herror, hclosest⟩ := exists_round_unit true hk hg
    refine ⟨true, n, u, ?_, hrounded, ?_, ?_⟩
    · rw [← hround]
      unfold UnpackedFloat.normalize
      rw [compare_lt_iff_lt.2 hneg, Int.neg_neg, Int.toNat_natCast]
      rfl
    · have hflip : (Binary.finite true n u).value - ((-(k : ℤ) : ℤ) : ℚ) * 2 ^ g = -(n * 2 ^ u - k * 2 ^ g) := by
        rw [Binary.value, if_pos rfl, Int.cast_neg, Int.cast_natCast]
        ring
      rw [habs, hflip, abs_neg]
      exact herror
    · rw [Int.cast_neg, Int.cast_natCast, neg_mul]
      exact hclosest.neg
  · refine ⟨false, 0, -1074, ?_, isCanonical_zero.fitsFormat, ?_, ?_⟩
    · unfold UnpackedFloat.normalize
      rw [compare_eq_iff_eq.2 rfl]
      rfl
    · simp [Binary.value]
    · simpa [Binary.value] using isClosest_self 0
  · obtain ⟨k, rfl⟩ : ∃ k : ℕ, d = k := ⟨d.natAbs, by omega⟩
    have hk : 0 < k := by omega
    have habs : |((k : ℤ) : ℚ) * 2 ^ g| = k * 2 ^ g := by
      rw [Int.cast_natCast, abs_of_nonneg (by positivity)]
    obtain ⟨n, u, hround, hrounded, herror, hclosest⟩ := exists_round_unit false hk hg
    refine ⟨false, n, u, ?_, hrounded, ?_, ?_⟩
    · rw [← hround]
      unfold UnpackedFloat.normalize
      rw [compare_gt_iff_gt.2 hpos, Int.toNat_natCast]
      rfl
    · rw [habs, Int.cast_natCast]
      exact herror
    · rw [Int.cast_natCast]
      exact hclosest

/-- A significand that is shifted to a smaller exponent, with its sign. -/
theorem apply_shifted (negative : Bool) (m : ℕ) {e g : ℤ} (h : g ≤ e) :
    (((signOf negative).apply (m <<< (e - g).toNat : ℕ) : ℤ) : ℚ) * 2 ^ g = (Binary.finite negative m e).value := by
  have hscale : ((m <<< (e - g).toNat : ℕ) : ℚ) * 2 ^ g = m * 2 ^ e := by
    have hexponent : e = ((e - g).toNat : ℤ) + g := by omega
    conv_rhs => rw [hexponent, zpow_add₀ two_ne_zero, zpow_natCast]
    rw [Nat.shiftLeft_eq]
    push_cast
    ring
  cases negative with
  | false => exact hscale
  | true =>
    have happly : (signOf true).apply (m <<< (e - g).toNat : ℕ) = -((m <<< (e - g).toNat : ℕ) : ℤ) := rfl
    rw [happly, Int.cast_neg, Int.cast_natCast, neg_mul, hscale]
    rfl

/-- A difference is rounded by a small share of it, to a closest value. -/
theorem exists_parts_sub (negative negative' : Bool) {m n : ℕ} {e f : ℤ} (hm : IsCanonical m e)
    (hn : IsCanonical n f) :
    ∃ sign r u, UnpackedFloat.sub Format.binary64 (Binary.finite negative m e).unpacked
        (Binary.finite negative' n f).unpacked = (Binary.finite sign r u).unpacked ∧
      FitsFormat r u ∧
      |(Binary.finite sign r u).value - ((Binary.finite negative m e).value - (Binary.finite negative' n f).value)| ≤
        |(Binary.finite negative m e).value - (Binary.finite negative' n f).value| / 2 ^ 52 ∧
      IsClosest (Binary.finite sign r u).value
        ((Binary.finite negative m e).value - (Binary.finite negative' n f).value) := by
  have hzero : ∀ (s : Bool) (g : ℤ), (Binary.finite s 0 g).value = 0 := by
    intro s g
    cases s <;> simp [Binary.value]
  rcases Nat.eq_zero_or_pos n with rfl | hn₀
  · -- nothing is taken away
    rcases Nat.eq_zero_or_pos m with rfl | hm₀
    · refine ⟨negative && !negative', 0, -1074, ?_, isCanonical_zero.fitsFormat, ?_, ?_⟩
      · cases negative <;> cases negative' <;> rfl
      · simp only [hzero, sub_self, abs_zero, zero_div, le_refl]
      · simp only [hzero, sub_self]
        exact isClosest_self 0
    · refine ⟨negative, m, e, ?_, hm.fitsFormat, ?_, ?_⟩
      · rw [Binary.unpacked_of_pos negative hm₀]
        rfl
      · rw [hzero, sub_zero, sub_self, abs_zero]
        positivity
      · rw [hzero, sub_zero]
        exact isClosest_self _
  · rcases Nat.eq_zero_or_pos m with rfl | hm₀
    · refine ⟨!negative', n, f, ?_, hn.fitsFormat, ?_, ?_⟩
      · rw [Binary.unpacked_of_pos negative' hn₀, Binary.unpacked_of_pos _ hn₀]
        cases negative' <;> rfl
      · rw [hzero, zero_sub, Binary.value_not, sub_self, abs_zero]
        positivity
      · rw [hzero, zero_sub, Binary.value_not]
        exact isClosest_self _
    · have hleast := hm.least
      have hleast' := hn.least
      have hvalue := apply_shifted negative m (min_le_left e f)
      have hvalue' := apply_shifted negative' n (min_le_right e f)
      have hdifference : (((signOf negative).apply (m <<< (e - min e f).toNat : ℕ) -
          (signOf negative').apply (n <<< (f - min e f).toNat : ℕ) : ℤ) : ℚ) * 2 ^ min e f =
          (Binary.finite negative m e).value - (Binary.finite negative' n f).value := by
        rw [Int.cast_sub, sub_mul, hvalue, hvalue']
      obtain ⟨sign, r, u, hnormalize, hrounded, herror, hclosest⟩ := exists_normalize (g := min e f) (by omega)
        (d := (signOf negative).apply (m <<< (e - min e f).toNat : ℕ) -
          (signOf negative').apply (n <<< (f - min e f).toNat : ℕ))
      rw [hdifference] at herror hclosest
      refine ⟨sign, r, u, ?_, hrounded, herror, hclosest⟩
      rw [← hnormalize, Binary.unpacked_of_pos negative hm₀, Binary.unpacked_of_pos negative' hn₀]
      rfl

/-- A product is rounded by a small share of it, or by the least unit, to a closest value. -/
theorem exists_parts_mul (negative negative' : Bool) {m n : ℕ} {e f : ℤ} (hm : IsCanonical m e)
    (hn : IsCanonical n f) :
    ∃ r u, UnpackedFloat.mul Format.binary64 (Binary.finite negative m e).unpacked
        (Binary.finite negative' n f).unpacked = (Binary.finite (negative != negative') r u).unpacked ∧
      FitsFormat r u ∧ (m * n = 0 → r = 0) ∧
      |(r : ℚ) * 2 ^ u - m * 2 ^ e * (n * 2 ^ f)| ≤ m * 2 ^ e * (n * 2 ^ f) / 2 ^ 52 + leastUnit ∧
      IsClosest (r * 2 ^ u) (m * 2 ^ e * (n * 2 ^ f)) := by
  have hproduct : ((m * n : ℕ) : ℚ) * 2 ^ (e + f) = m * 2 ^ e * (n * 2 ^ f) := by
    rw [zpow_add₀ two_ne_zero]
    push_cast
    ring
  by_cases hzero : m * n = 0
  · refine ⟨0, -1074, ?_, isCanonical_zero.fitsFormat, fun _ => rfl, ?_, ?_⟩
    · rcases Nat.eq_zero_or_pos m with rfl | hm₀
      · rcases Nat.eq_zero_or_pos n with rfl | hn₀
        · cases negative <;> cases negative' <;> rfl
        · rw [Binary.unpacked_of_pos negative' hn₀]
          cases negative <;> cases negative' <;> rfl
      · rcases Nat.eq_zero_or_pos n with rfl | hn₀
        · rw [Binary.unpacked_of_pos negative hm₀]
          cases negative <;> cases negative' <;> rfl
        · exact absurd hzero (Nat.mul_pos hm₀ hn₀).ne'
    · rw [← hproduct, hzero]
      simp only [Nat.cast_zero, zero_mul, sub_self, abs_zero, zero_div, zero_add]
      exact leastUnit_pos.le
    · rw [← hproduct, hzero, Nat.cast_zero, zero_mul, zero_mul]
      exact isClosest_self 0
  · have hm₀ : 0 < m := Nat.pos_of_ne_zero fun h => hzero (by rw [h, Nat.zero_mul])
    have hn₀ : 0 < n := Nat.pos_of_ne_zero fun h => hzero (by rw [h, Nat.mul_zero])
    -- one factor fills the format, or both have the least exponent
    have hunit : e + f ≤ unitOf (m * n) (e + f) := by
      have hlog : 2 ^ 52 ≤ m * n → 52 ≤ (m * n).log2 := fun h => (Nat.le_log2 hzero).2 h
      have hleft : 2 ^ 52 ≤ m → 2 ^ 52 ≤ m * n := fun h => h.trans (Nat.le_mul_of_pos_right m hn₀)
      have hright : 2 ^ 52 ≤ n → 2 ^ 52 ≤ m * n := fun h => h.trans (Nat.le_mul_of_pos_left n hm₀)
      unfold unitOf
      rcases hm.normal with hfull | hleast
      · have := hlog (hleft hfull)
        omega
      · rcases hn.normal with hfull | hleast'
        · have := hlog (hright hfull)
          omega
        · omega
    rw [← hproduct]
    obtain ⟨r, u, hround, hrounded, herror, -, hclosest⟩ := exists_parts_of_round (negative != negative') (a := .exact)
      (q := (m * n : ℕ)) le_rfl (lt_add_one _) hunit
    refine ⟨r, u, ?_, hrounded, fun h => absurd h hzero, herror, hclosest rfl⟩
    rw [← hround, Binary.unpacked_of_pos negative hm₀, Binary.unpacked_of_pos negative' hn₀]
    cases negative <;> cases negative' <;> rfl

/-- The exponent of the last place of a quotient, before it is rounded. -/
def quotientExponent (m n : ℕ) (e f : ℤ) : ℤ := min (e - f) (max ((m.log2 : ℤ) - n.log2 + e - f - 53) (-1074))

/-- The dividend is shifted to that exponent. -/
theorem divCore_eq (m n : ℕ) (e f : ℤ) :
    divCore Format.binary64 m e n f = (m * 2 ^ (e - f - quotientExponent m n e f).toNat / n, quotientExponent m n e f,
      accuracyOfFraction (m * 2 ^ (e - f - quotientExponent m n e f).toNat % n) n) := by
  have htarget : Format.binary64.targetExponent (totalExponent m e - totalExponent n f) =
      max ((m.log2 : ℤ) - n.log2 + e - f - 53) (-1074) := by
    unfold totalExponent
    rw [targetExponent_eq]
    congr 1
    omega
  unfold divCore
  rw [htarget]
  dsimp only
  rw [Nat.shiftLeft_eq]
  rfl

/-- The shifted dividend fills the format after the division, unless the quotient is below the least unit. -/
theorem quotientExponent_le_unitOf {m n : ℕ} {e f : ℤ} (hm : m < 2 ^ 53) (hm₀ : 0 < m) (hn₀ : 0 < n) :
    quotientExponent m n e f ≤
      unitOf (m * 2 ^ (e - f - quotientExponent m n e f).toNat / n) (quotientExponent m n e f) := by
  have ht : quotientExponent m n e f = min (e - f) (max ((m.log2 : ℤ) - n.log2 + e - f - 53) (-1074)) := rfl
  obtain ⟨k, hk⟩ : ∃ k, k = (e - f - quotientExponent m n e f).toNat := ⟨_, rfl⟩
  have hfull : k + m.log2 = 53 + n.log2 → 52 ≤ (m * 2 ^ k / n).log2 := by
    intro hk
    have hle : 2 ^ 52 ≤ m * 2 ^ k / n := by
      rw [Nat.le_div_iff_mul_le hn₀]
      calc 2 ^ 52 * n ≤ 2 ^ 52 * 2 ^ (n.log2 + 1) := Nat.mul_le_mul_left _ Nat.lt_log2_self.le
        _ = 2 ^ (m.log2 + k) := by
          rw [← Nat.pow_add]
          congr 1
          omega
        _ ≤ m * 2 ^ k := by
          rw [Nat.pow_add]
          exact Nat.mul_le_mul_right _ (Nat.log2_self_le hm₀.ne')
    exact (Nat.le_log2 (by omega)).2 hle
  have hlog : m.log2 ≤ 52 := Nat.le_of_lt_succ ((Nat.log2_lt hm₀.ne').2 hm)
  rw [← hk]
  unfold unitOf
  by_cases hshift : k + m.log2 = 53 + n.log2
  · have := hfull hshift
    omega
  · omega

/-- A quotient is rounded by a small share of it, or by the least unit. -/
theorem exists_parts_div (negative negative' : Bool) {m n : ℕ} {e f : ℤ} (hm : IsCanonical m e)
    (hm₀ : 0 < m) (hn₀ : 0 < n) :
    ∃ r u, UnpackedFloat.div Format.binary64 (Binary.finite negative m e).unpacked
        (Binary.finite negative' n f).unpacked = (Binary.finite (negative != negative') r u).unpacked ∧
      FitsFormat r u ∧
      |(r : ℚ) * 2 ^ u - m * 2 ^ e / (n * 2 ^ f)| ≤ m * 2 ^ e / (n * 2 ^ f) / 2 ^ 52 + leastUnit := by
  have hcore := divCore_eq m n e f
  have hunit := quotientExponent_le_unitOf (e := e) (f := f) hm.lt hm₀ hn₀
  have hleast : quotientExponent m n e f ≤ e - f := min_le_left _ _
  generalize quotientExponent m n e f = t at hcore hunit hleast
  obtain ⟨k, hk⟩ : ∃ k, k = (e - f - t).toNat := ⟨_, rfl⟩
  rw [← hk] at hcore hunit
  have hn₀' : (0 : ℚ) < n := by exact_mod_cast hn₀
  have hquotient : ((m * 2 ^ k : ℕ) : ℚ) / n * 2 ^ t = m * 2 ^ e / (n * 2 ^ f) := by
    have hexponent : e = k + t + f := by omega
    rw [hexponent, zpow_add₀ two_ne_zero, zpow_add₀ two_ne_zero, zpow_natCast]
    push_cast
    field_simp
  have hbelow : ((m * 2 ^ k / n : ℕ) : ℚ) ≤ ((m * 2 ^ k : ℕ) : ℚ) / n := Nat.cast_div_le
  have hbeyond : ((m * 2 ^ k : ℕ) : ℚ) / n < (m * 2 ^ k / n : ℕ) + 1 := by
    have hnext : m * 2 ^ k < (m * 2 ^ k / n + 1) * n := by
      rw [Nat.succ_mul]
      exact Nat.lt_div_mul_add hn₀
    rw [div_lt_iff₀ hn₀']
    exact_mod_cast hnext
  obtain ⟨r, u, hround, hrounded, herror, -, -⟩ := exists_parts_of_round (negative != negative')
    (a := accuracyOfFraction (m * 2 ^ k % n) n) hbelow hbeyond hunit
  rw [hquotient] at herror
  refine ⟨r, u, ?_, hrounded, herror⟩
  rw [← hround, Binary.unpacked_of_pos negative hm₀, Binary.unpacked_of_pos negative' hn₀]
  unfold UnpackedFloat.div
  dsimp only
  rw [hcore]
  cases negative <;> cases negative' <;> rfl

end Decimal

end FuzzyInference
