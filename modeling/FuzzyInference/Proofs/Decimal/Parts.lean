import FuzzyInference.Proofs.Decimal.Value
import FuzzyInference.Proofs.Decimal.Significant

/-!
# Whole and fractional parts

The magnitude of a finite number is cut into a whole number and a fraction below one. Both cuts are exact: what is
left of a significand after whole ones are taken away has no more bits than the significand has.

## Main statements

* `Float.floor?_abs`: the whole part
* `Float.remainder_abs_one`: the fractional part
-/

namespace FuzzyInference

open Scalar

namespace Decimal

/-- A fraction that is the value of a number is rounded to it. -/
theorem ofFloat_nearestFloat {num den m : ℕ} {e : ℤ} (hden : 0 < den) (hc : IsCanonical m e)
    (h : (num : ℚ) / den = m * 2 ^ e) : Binary.ofFloat (nearestFloat false num den) = .finite false m e := by
  have hdenq : (den : ℚ) ≠ 0 := Nat.cast_ne_zero.2 hden.ne'
  have hpow : (2 : ℚ) ^ e ≠ 0 := by positivity
  suffices hbits : nearestFloat false num den = floatOfBits false (magnitudeBits m e) by
    rw [hbits, ofFloat_floatOfBits _ hc]
  rcases Nat.eq_zero_or_pos m with rfl | hm
  · have hnum : num = 0 := by
      rw [Nat.cast_zero, zero_mul, div_eq_zero_iff] at h
      exact Nat.cast_eq_zero.1 (h.resolve_right hdenq)
    have hleast : e = -1074 := hc.normal.resolve_left (by norm_num)
    rw [hnum, hleast]
    rfl
  · have hnum : 0 < num := by
      rw [Nat.pos_iff_ne_zero]
      rintro rfl
      rw [Nat.cast_zero, zero_div, zero_eq_mul] at h
      exact hm.ne' (Nat.cast_eq_zero.1 (h.resolve_right hpow))
    refine nearestFloat_eq false hnum hden hc hm ((roundsTo_iff hm).2 ?_)
    rw [h, mul_div_cancel_right₀ _ hpow, sub_self, abs_zero]
    refine ⟨by norm_num, fun _ => by norm_num, ?_⟩
    rintro rfl -
    norm_num

/-- What whole ones leave of a number has no more bits, and the value is the fractional part. -/
theorem exists_fract {m : ℕ} {e : ℤ} (hm : m < 2 ^ 53) (he : -1074 ≤ e) :
    m * twoTo (e - min e (-52)).toNat % (2 ^ 52 * twoTo (-52 - min e (-52)).toNat) < 2 ^ 53 ∧
      ((m * twoTo (e - min e (-52)).toNat % (2 ^ 52 * twoTo (-52 - min e (-52)).toNat) : ℕ) : ℚ) *
        2 ^ min e (-52) = Int.fract ((m : ℚ) * 2 ^ e) := by
  obtain ⟨unit, hunit⟩ : ∃ unit, unit = min e (-52) := ⟨_, rfl⟩
  obtain ⟨a, ha⟩ : ∃ a, a = m * twoTo (e - unit).toNat := ⟨_, rfl⟩
  obtain ⟨n, hn⟩ : ∃ n, n = 2 ^ 52 * twoTo (-52 - unit).toNat := ⟨_, rfl⟩
  rw [← hunit, ← ha, ← hn]
  -- counted in the smaller unit, the number is `a` and one is `n`
  have hpow : (0 : ℚ) < 2 ^ unit := by positivity
  have hnpos : 0 < n := by
    rw [hn]
    exact Nat.mul_pos (by norm_num) (Nat.two_pow_pos _)
  have hscale : ∀ k : ℤ, unit ≤ k → ((twoTo (k - unit).toNat : ℕ) : ℚ) * 2 ^ unit = 2 ^ k := by
    intro k hk
    rw [show twoTo (k - unit).toNat = 2 ^ (k - unit).toNat from rfl, Nat.cast_pow, Nat.cast_ofNat, ← zpow_natCast,
      ← zpow_add₀ two_ne_zero]
    congr 1
    omega
  have hvalue : (a : ℚ) * 2 ^ unit = m * 2 ^ e := by
    rw [ha, Nat.cast_mul, mul_assoc, hscale e (by omega)]
  have hone : (n : ℚ) * 2 ^ unit = 1 := by
    rw [hn, Nat.cast_mul, mul_assoc, hscale (-52) (by omega)]
    norm_num
  refine ⟨?_, ?_⟩
  · by_cases hsmall : e ≤ -52
    · -- the significand itself is not larger
      have ham : a = m := by
        rw [ha, show (e - unit).toNat = 0 by omega]
        exact Nat.mul_one m
      rw [ham]
      exact (Nat.mod_le m n).trans_lt hm
    · have hn52 : n = 2 ^ 52 := by
        rw [hn, show (-52 - unit).toNat = 0 by omega]
        rfl
      have hlt := Nat.mod_lt a hnpos
      omega
  · have hmod : ((a % n : ℕ) : ℚ) = a - n * (a / n : ℕ) := by
      have hsum : (n : ℚ) * (a / n : ℕ) + (a % n : ℕ) = a := by exact_mod_cast Nat.div_add_mod a n
      linarith
    have hlt : ((a % n : ℕ) : ℚ) < n := by exact_mod_cast Nat.mod_lt a hnpos
    rw [eq_comm, Int.fract_eq_iff]
    refine ⟨by positivity, ?_, (a / n : ℕ), ?_⟩
    · calc ((a % n : ℕ) : ℚ) * 2 ^ unit < n * 2 ^ unit := mul_lt_mul_of_pos_right hlt hpow
        _ = 1 := hone
    · rw [hmod, sub_mul, hvalue, mul_right_comm, hone, one_mul, sub_sub_cancel]
      rfl

end Decimal

namespace Float

open Decimal

variable {x : Float}

/-- The greatest whole number that is not above the magnitude. -/
theorem floor?_abs (hx : Scalar.isFinite x = true) : floor? (Float.abs x) = some (⌊|value x|⌋₊ : ℤ) := by
  obtain ⟨negative, m, e, hm⟩ := exists_of_isFinite hx
  have hvalue : |value x| = (fractionOf m e).1 / (fractionOf m e).2 := by
    rw [value, hm, Binary.abs_value, fractionOf_ratio]
  rw [floor?, ofFloat_abs hm, hvalue, Nat.floor_div_eq_div]
  rfl

/-- What whole ones leave of the magnitude. -/
theorem remainder_abs_one (hx : Scalar.isFinite x = true) :
    ∃ r, Scalar.remainder (Scalar.abs x) 1.0 = .ok r ∧ Scalar.isFinite r = true ∧ value r = Int.fract |value x| := by
  obtain ⟨negative, m, e, hm⟩ := exists_of_isFinite hx
  obtain ⟨hlt, hleast, -, -⟩ := (isCanonical_of_ofFloat hm).1
  obtain ⟨hbits, hfract⟩ := exists_fract hlt hleast
  have hone : Binary.ofFloat 1.0 = .finite false (2 ^ 52) (-52) := by decide
  obtain ⟨n, u, hcanonical, hvalue⟩ := exists_isCanonical hbits (u := min e (-52)) (by omega) (by omega)
  have hremainder : Binary.ofFloat (Decimal.remainder (Float.abs x) 1.0) = .finite false n u := by
    rw [Decimal.remainder, ofFloat_abs hm, hone]
    dsimp only
    rw [if_neg (by norm_num)]
    refine ofFloat_nearestFloat (fractionOf_den_pos _ _) hcanonical ?_
    rw [fractionOf_ratio, hvalue]
  have hfinite := isFinite_of_ofFloat hremainder
  refine ⟨Decimal.remainder (Float.abs x) 1.0, ?_, hfinite, ?_⟩
  · have hnan := isNaN_of_isFinite hfinite
    rw [Scalar.remainder]
    change (if Scalar.isNaN (Decimal.remainder (Float.abs x) 1.0) && _ && _ then _ else _) = _
    rw [hnan]
    rfl
  · rw [value_of_parts hremainder, hvalue, hfract, value, hm, Binary.abs_value]

end Float

end FuzzyInference
