import FuzzyInference.Proofs.Decimal.Closest
import FuzzyInference.Proofs.Decimal.Significant
import FuzzyInference.Proofs.Decimal.Value

/-!
# A given number of decimals

A number that is written with a given number of decimals and read again need not be the same number, but its text is.
Two roundings follow each other, to a decimal and to a number. The number that is read is at least as close to the
decimal as the one that was written, which is a number as well; so the decimal is a nearest one of its grid for both.
Where it is one of two nearest ones, it was taken because its last digit is even, and is taken again for the same
reason. Neither the size of the number nor the fineness of the grid matters.

The plan of this module:

* the nearest decimal of a grid;
* fractions in the range of the numbers are rounded to a closest number;
* the decimal that is written, and the number that is read of it;
* texts of all numbers.

## Main statements

* `unitsOf_of_closer`: what is at least as close to a decimal has the same one
* `exists_roundsTo`, `RoundsTo.isClosest`: rounded fractions
* `Scalar.text_read`: texts are stable when they are read and written again
-/

namespace FuzzyInference

namespace Decimal

open Text

variable {places m n : ℕ} {e : ℤ}

/-! ## §1 The nearest decimal of a grid -/

theorem unitsOf_ratio (places m : ℕ) (e : ℤ) :
    (((fractionOf m e).1 * tenTo places : ℕ) : ℚ) / (fractionOf m e).2 = m * 2 ^ e * 10 ^ places := by
  rw [← fractionOf_ratio]
  simp only [Nat.pow_eq]
  push_cast
  ring

/-- The decimal that is written is at most half a unit away, and less than that where its last digit is odd. -/
theorem abs_sub_unitsOf (places m : ℕ) (e : ℤ) :
    |(m : ℚ) * 2 ^ e * 10 ^ places - unitsOf places m e| ≤ 1 / 2 ∧
      (unitsOf places m e % 2 ≠ 0 → |(m : ℚ) * 2 ^ e * 10 ^ places - unitsOf places m e| < 1 / 2) := by
  rw [← unitsOf_ratio]
  exact ⟨abs_sub_roundDiv _ (fractionOf_den_pos m e), abs_sub_roundDiv_lt _ (fractionOf_den_pos m e)⟩

theorem unitsOf_eq (h : |(m : ℚ) * 2 ^ e * 10 ^ places - n| ≤ 1 / 2)
    (hodd : n % 2 ≠ 0 → |(m : ℚ) * 2 ^ e * 10 ^ places - n| < 1 / 2) : unitsOf places m e = n := by
  rw [← unitsOf_ratio] at h hodd
  by_cases heven : n % 2 = 0
  · exact roundDiv_eq_of_even (fractionOf_den_pos m e) h heven
  · exact roundDiv_eq (fractionOf_den_pos m e) (hodd heven)

/-- A magnitude that is at least as close to the decimal of another one has the same decimal. -/
theorem unitsOf_of_closer {m' : ℕ} {e' : ℤ}
    (h : |(m' : ℚ) * 2 ^ e' - unitsOf places m e * 10 ^ (-(places : ℤ))| ≤
      |(m : ℚ) * 2 ^ e - unitsOf places m e * 10 ^ (-(places : ℤ))|) : unitsOf places m' e' = unitsOf places m e := by
  have hpow : (0 : ℚ) < 10 ^ places := by positivity
  have hunits : ∀ q : ℚ, |q * 10 ^ places - unitsOf places m e| =
      |q - unitsOf places m e * 10 ^ (-(places : ℤ))| * 10 ^ places := by
    intro q
    rw [← abs_of_pos hpow, ← abs_mul, abs_of_pos hpow, sub_mul, zpow_neg, zpow_natCast, mul_assoc,
      inv_mul_cancel₀ hpow.ne', mul_one]
  have hcloser : |(m' : ℚ) * 2 ^ e' * 10 ^ places - unitsOf places m e| ≤
      |(m : ℚ) * 2 ^ e * 10 ^ places - unitsOf places m e| := by
    rw [hunits, hunits]
    exact mul_le_mul_of_nonneg_right h hpow.le
  obtain ⟨hhalf, hodd⟩ := abs_sub_unitsOf places m e
  exact unitsOf_eq (hcloser.trans hhalf) fun hne => hcloser.trans_lt (hodd hne)

/-! ## §2 Rounded fractions -/

/-- A fraction that is neither too small nor too large is rounded to a positive number. -/
theorem exists_roundsTo {num den : ℕ} (hden : 0 < den) (hlow : (2 : ℚ) ^ (-1075 : ℤ) < num / den)
    (hhigh : (num : ℚ) / den ≤ 2 ^ (1023 : ℤ)) : ∃ m e, IsCanonical m e ∧ 0 < m ∧ RoundsTo m e (num / den) := by
  have hq : (0 : ℚ) < num / den := lt_trans (by positivity) hlow
  have hnum : 0 < num := by
    rcases Nat.eq_zero_or_pos num with rfl | h
    · simp at hq
    · exact h
  obtain ⟨u, hu⟩ : ∃ u, max (Int.log 2 ((num : ℚ) / den) - 52) (-1074) = u := ⟨_, rfl⟩
  obtain ⟨s, hs⟩ : ∃ s, roundDiv (num * twoTo (-u).toNat) (den * twoTo u.toNat) = s := ⟨_, rfl⟩
  have hbits := nearestFloat_of_unit false hnum hden hu hs
  have hpos : 0 < den * twoTo u.toNat := Nat.mul_pos hden (Nat.pow_pos two_pos)
  have hnear := abs_sub_roundDiv (num * twoTo (-u).toNat) hpos
  rw [unit_ratio, hs] at hnear
  obtain ⟨hbelow, habove⟩ := unit_bounds hq hu
  have hbounds := abs_le.1 hnear
  have hleast : -1074 ≤ u := hu ▸ le_max_right _ _
  have hgreatest : u ≤ 971 := by
    have hlog : Int.log 2 ((num : ℚ) / den) < 1024 := by
      rw [← Int.lt_zpow_iff_log_lt one_lt_two hq]
      exact hhigh.trans_lt (zpow_lt_zpow_right₀ one_lt_two (by norm_num))
    omega
  have hs53 : s ≤ 2 ^ 53 := by
    have hlt : (s : ℚ) < 2 ^ 53 + 1 := by linarith
    have hltNat : s < 2 ^ 53 + 1 := by exact_mod_cast hlt
    omega
  have hnormal : 2 ^ 52 ≤ s ∨ u = -1074 := by
    refine habove.symm.imp_left fun hle => ?_
    have hlt : (2 : ℚ) ^ 52 < s + 1 := by linarith
    have hltNat : 2 ^ 52 < s + 1 := by exact_mod_cast hlt
    omega
  have hs₀ : 0 < s := by
    rcases hnormal with hle | rfl
    · omega
    · -- more than one half of the least unit is not rounded to nothing
      have hunits : (1 / 2 : ℚ) < num / den / 2 ^ (-1074 : ℤ) := by
        rw [lt_div_iff₀ (by positivity)]
        refine lt_of_eq_of_lt ?_ hlow
        rw [show (-1075 : ℤ) = -1 + -1074 from rfl, zpow_add₀ two_ne_zero, zpow_neg_one, one_div]
      have hspos : (0 : ℚ) < s := by linarith
      exact_mod_cast hspos
  -- a significand that gets too large goes over into the exponent
  have hcanonical : ∃ m e, IsCanonical m e ∧ 0 < m ∧ magnitudeBits s u = magnitudeBits m e := by
    rcases hs53.lt_or_eq with hlt | rfl
    · exact ⟨s, u, ⟨hlt, hleast, hgreatest, hnormal⟩, hs₀, rfl⟩
    · refine ⟨2 ^ 52, u + 1, ⟨by norm_num, by omega, ?_, .inl le_rfl⟩, by norm_num, ?_⟩
      · have hlarge : (2 : ℚ) ^ (u + 52) < 2 ^ (1023 : ℤ) := by
          refine lt_of_lt_of_le ?_ hhigh
          have hfull : (2 : ℚ) ^ 52 < num / den / 2 ^ u := by
            push_cast at hbounds
            linarith
          rw [lt_div_iff₀ (by positivity)] at hfull
          rwa [zpow_add₀ two_ne_zero, mul_comm]
        have hlt := (zpow_lt_zpow_iff_right₀ one_lt_two).1 hlarge
        omega
      · rw [magnitudeBits, magnitudeBits, show (u + 1 + 1074).toNat = (u + 1074).toNat + 1 by omega]
        ring
  obtain ⟨m, e, hc, hm, hmagnitude⟩ := hcanonical
  rw [hmagnitude] at hbits
  exact ⟨m, e, hc, hm, (roundsTo_of_nearestFloat hnum hden (ofFloat_floatOfBits false hc) hm hbits).2⟩

theorem IsCanonical.isRepresentable (hc : IsCanonical m e) : IsRepresentable ((m : ℚ) * 2 ^ e) := by
  refine ⟨m, e, ?_, hc.least, by rw [Int.cast_natCast]⟩
  rw [Nat.abs_cast]
  exact_mod_cast hc.lt

/-- No number is closer to a fraction than the one that it is rounded to. -/
theorem RoundsTo.isClosest {num den : ℕ} (hc : IsCanonical m e) (hm : 0 < m)
    (h : RoundsTo m e (num / den)) : IsClosest (m * 2 ^ e) (num / den) := by
  have hpow : (0 : ℚ) < 2 ^ e := by positivity
  have hdistance : |(m : ℚ) * 2 ^ e - num / den| = |(num : ℚ) / den / 2 ^ e - m| * 2 ^ e := by
    rw [abs_sub_comm, ← abs_of_pos hpow, ← abs_mul, abs_of_pos hpow, sub_mul, div_mul_cancel₀ _ hpow.ne']
  by_cases hfull : e = -1074 ∨ (2 : ℚ) ^ 52 * 2 ^ e ≤ num / den
  · refine isClosest_of_half ?_ hfull
    rw [hdistance]
    linarith [mul_le_mul_of_nonneg_right (h.near hm).1 hpow.le]
  · -- in the binade below a power of two the last place is half as large
    obtain ⟨hleast, hnot⟩ := not_or.1 hfull
    have hbelow : (num : ℚ) / den < 2 ^ (52 + e) := by
      rw [zpow_add₀ two_ne_zero]
      exact_mod_cast not_le.1 hnot
    obtain rfl := h.eq_pow hc hm hbelow hleast
    have hquarter := h.quarter (lt_of_le_of_ne hc.least (Ne.symm hleast))
    have hhalf : (2 : ℚ) ^ e = 2 * 2 ^ (e - 1) := by
      rw [zpow_sub_one₀ two_ne_zero]
      field_simp
    have hvalue : ((2 ^ 52 : ℕ) : ℚ) * 2 ^ e = (2 ^ 53 : ℕ) * 2 ^ (e - 1) := by
      rw [hhalf]
      push_cast
      ring
    rw [le_div_iff₀ hpow] at hquarter
    have hdown : (num : ℚ) / den < 2 ^ 52 * 2 ^ e := not_le.1 hnot
    rw [hvalue]
    refine isClosest_of_half ?_ (.inr ?_)
    · rw [← hvalue, abs_of_nonneg (by push_cast; linarith)]
      push_cast
      linarith
    · have hpos : (0 : ℚ) < 2 ^ (e - 1) := by positivity
      linarith

/-! ## §3 The decimal that is written -/

/-- The decimal that is written of a number is rounded to some number, unless it is zero. -/
theorem exists_roundsTo_unitsOf (hc : IsCanonical m e) (hn : unitsOf places m e ≠ 0) :
    ∃ m' e', IsCanonical m' e' ∧ 0 < m' ∧ RoundsTo m' e' (unitsOf places m e / (10 ^ places : ℕ)) := by
  have hpow : (0 : ℚ) < (10 ^ places : ℕ) := by positivity
  obtain ⟨hhalf, -⟩ := abs_sub_unitsOf places m e
  have hone : (1 : ℚ) ≤ unitsOf places m e := by exact_mod_cast Nat.one_le_iff_ne_zero.2 hn
  have hbounds := abs_le.1 hhalf
  have hm : 0 < m := by
    rcases Nat.eq_zero_or_pos m with rfl | hm
    · simp at hbounds
      linarith
    · exact hm
  rcases le_or_gt 0 e with he | he
  · -- a whole number is written as it is
    obtain ⟨k, rfl⟩ := Int.eq_ofNat_of_zero_le he
    have hexact : unitsOf places m k = m * 2 ^ k * 10 ^ places := by
      refine unitsOf_eq ?_ fun _ => ?_
      · push_cast
        simp
      · push_cast
        simp
    refine ⟨m, k, hc, hm, ?_⟩
    rw [hexact, Nat.cast_mul, mul_div_cancel_right₀ _ hpow.ne']
    refine (roundsTo_iff hm).2 ?_
    push_cast
    rw [zpow_natCast, mul_div_cancel_right₀ _ (by positivity : (2 : ℚ) ^ k ≠ 0), sub_self, abs_zero]
    refine ⟨by norm_num, fun _ => by norm_num, ?_⟩
    rintro rfl -
    norm_num
  · have hcast : ((10 ^ places : ℕ) : ℚ) = 10 ^ places := by push_cast; rfl
    have hleast : (2 : ℚ) ^ (-1074 : ℤ) ≤ m * 2 ^ e := by
      have hmq : (1 : ℚ) ≤ m := by exact_mod_cast hm
      calc (2 : ℚ) ^ (-1074 : ℤ) ≤ 2 ^ e := zpow_le_zpow_right₀ one_le_two hc.least
        _ ≤ m * 2 ^ e := le_mul_of_one_le_left (by positivity) hmq
    have hsmall : (m : ℚ) * 2 ^ e ≤ 2 ^ 53 := by
      have hmq : (m : ℚ) ≤ 2 ^ 53 := by exact_mod_cast hc.lt.le
      have hle : (2 : ℚ) ^ e ≤ 1 := zpow_le_one_of_nonpos₀ one_le_two he.le
      nlinarith [zpow_pos (two_pos : (0 : ℚ) < 2) e]
    refine exists_roundsTo (Nat.pow_pos (by norm_num)) ?_ ?_
    · -- at least two thirds of the number are written
      rw [lt_div_iff₀ hpow, hcast]
      have hstep : (2 : ℚ) ^ (-1075 : ℤ) = 1 / 2 * 2 ^ (-1074 : ℤ) := by
        rw [show (-1075 : ℤ) = -1 + -1074 from rfl, zpow_add₀ two_ne_zero, zpow_neg_one, one_div]
      have hten : (0 : ℚ) < 10 ^ places := by positivity
      have hpositive : (0 : ℚ) < 2 ^ (-1074 : ℤ) := by positivity
      have hscaled := mul_le_mul_of_nonneg_right hleast hten.le
      have hroom : (0 : ℚ) < 2 ^ (-1074 : ℤ) * 10 ^ places := mul_pos hpositive hten
      rw [hstep]
      linarith
    · rw [div_le_iff₀ hpow, hcast]
      have hten : (1 : ℚ) ≤ 10 ^ places := one_le_pow₀ (by norm_num)
      have hlarge : (2 : ℚ) ^ 53 + 1 ≤ 2 ^ (1023 : ℤ) := by
        have hnat : (2 : ℕ) ^ 53 + 1 ≤ 2 ^ 1023 := by decide +kernel
        exact_mod_cast hnat
      have hscaled := mul_le_mul_of_nonneg_right hsmall (zero_le_one.trans hten)
      have hbound := mul_le_mul_of_nonneg_right hlarge (zero_le_one.trans hten)
      rw [add_mul, one_mul] at hbound
      refine le_trans ?_ hbound
      linarith

/-- The text is a decimal with so many decimals and that value. Zero has no sign. -/
def Denotes (places : ℕ) (s : String) (q : ℚ) : Prop :=
  ∃ (negative : Bool) (n : Numeral), s = String.ofList (if negative then '-' :: n.chars else n.chars) ∧
    n.exponent = none ∧ n.fraction.length = places ∧ q = (if negative then -n.value else n.value) ∧
    (negative = true → n.value ≠ 0)

section Finite

variable {x y : Float} {negative negative' : Bool} {m' : ℕ} {e' : ℤ}

/-- The text shows the units, and the sign unless there are none. -/
theorem exists_numeral_fixedText (places : ℕ) (h : Binary.ofFloat x = .finite negative m e) :
    ∃ n : Numeral, fixedText places x = String.ofList
        (if negative && unitsOf places m e != 0 then '-' :: n.chars else n.chars) ∧
      n.digits = unitsOf places m e ∧ n.exponent = none ∧ n.fraction.length = places := by
  obtain ⟨n, hchars, hdigits, hexponent, hlength⟩ := exists_numeral_placeText places (unitsOf places m e)
  refine ⟨n, ?_, hdigits, hexponent, hlength⟩
  simp only [fixedText, h, hchars]

theorem fixedText_eq (hx : Binary.ofFloat x = .finite negative m e) (hy : Binary.ofFloat y = .finite negative' m' e')
    (hunits : unitsOf places m' e' = unitsOf places m e) (hsign : unitsOf places m e ≠ 0 → negative' = negative) :
    fixedText places y = fixedText places x := by
  simp only [fixedText, hx, hy, hunits]
  by_cases hzero : unitsOf places m e = 0
  · simp [hzero]
  · rw [hsign hzero]

/-- The decimal that is written is at most half a unit of its last digit away from the number. -/
theorem exists_denotes (places : ℕ) (h : Binary.ofFloat x = .finite negative m e) :
    ∃ q, Denotes places (fixedText places x) q ∧ |q - Float.value x| ≤ 10 ^ (-(places : ℤ)) / 2 := by
  obtain ⟨n, htext, hdigits, hexponent, hlength⟩ := exists_numeral_fixedText places h
  have hpow : (0 : ℚ) < 10 ^ (places : ℤ) := by positivity
  have hvalue : n.value = unitsOf places m e * 10 ^ (-(places : ℤ)) := by
    rw [Numeral.value, Numeral.lastExponent, hdigits, hexponent, hlength, Option.getD_none, zero_sub]
  have hdistance : |n.value - m * 2 ^ e| ≤ 10 ^ (-(places : ℤ)) / 2 := by
    have hhalf := (abs_sub_unitsOf places m e).1
    have hunits : n.value - m * 2 ^ e = -((m : ℚ) * 2 ^ e * 10 ^ (places : ℤ) - unitsOf places m e) *
        10 ^ (-(places : ℤ)) := by
      rw [hvalue, zpow_neg]
      field_simp
      ring
    rw [hunits, abs_mul, abs_neg, zpow_natCast, abs_of_pos (by positivity : (0 : ℚ) < 10 ^ (-(places : ℤ)))]
    linarith [mul_le_mul_of_nonneg_right hhalf (by positivity : (0 : ℚ) ≤ 10 ^ (-(places : ℤ)))]
  have hx : Float.value x = if negative then -((m : ℚ) * 2 ^ e) else m * 2 ^ e := by
    rw [Float.value, h, Binary.value]
  have hzero : unitsOf places m e = 0 ↔ n.value = 0 := by
    rw [hvalue, mul_eq_zero_iff_right (by positivity), Nat.cast_eq_zero]
  refine ⟨_, ⟨negative && unitsOf places m e != 0, n, htext, hexponent, hlength, rfl, fun hsign => ?_⟩, ?_⟩
  · rw [Bool.and_eq_true, bne_iff_ne] at hsign
    exact mt hzero.2 hsign.2
  · cases negative with
    | false => rwa [hx]
    | true =>
      rw [hx, if_pos rfl]
      by_cases hunits : unitsOf places m e = 0
      -- without a sign only zero is written, which has none
      · rw [hzero.1 hunits, zero_sub, abs_neg] at hdistance
        rw [hzero.1 hunits, neg_zero, ite_self, zero_sub, neg_neg]
        exact hdistance
      · rw [if_pos (by simpa using hunits), neg_sub_neg, abs_sub_comm]
        exact hdistance

/-- What is read of the text of a finite number has the same text. -/
theorem exists_read_fixedText (places : ℕ) (h : Binary.ofFloat x = .finite negative m e) :
    ∃ y, readFloat? (fixedText places x) = some y ∧ fixedText places y = fixedText places x ∧ y ≠ -0.0 ∧
      Scalar.isFinite y = true := by
  obtain ⟨n, htext, hdigits, hexponent, hlength⟩ := exists_numeral_fixedText places h
  have hread := n.readFloat?_eq (negative && unitsOf places m e != 0)
  have hlast : n.lastExponent = -(places : ℤ) := by
    rw [Numeral.lastExponent, hexponent, hlength, Option.getD_none, zero_sub]
  rw [← htext, hdigits, hlast] at hread
  obtain ⟨hc, -⟩ := isCanonical_of_ofFloat h
  by_cases hunits : unitsOf places m e = 0
  · have hzero : Binary.ofFloat 0.0 = .finite false 0 (-1074) := by decide
    have hsame : unitsOf places 0 (-1074) = unitsOf places m e := by
      rw [hunits]
      exact unitsOf_eq (by simp) (by simp)
    refine ⟨0.0, ?_, fixedText_eq h hzero hsame fun hne => absurd hunits hne, by decide, by decide⟩
    rw [hread, hunits, bne_self_eq_false, Bool.and_false]
    exact congrArg some (nearestDecimal_of_zero hzero (by simp))
  · obtain ⟨m', e', hc', hm', hrounds⟩ := exists_roundsTo_unitsOf hc hunits
    have hclosest := hrounds.isClosest hc' hm' _ hc.isRepresentable
    have hdecimal : (unitsOf places m e : ℚ) / (10 ^ places : ℕ) = unitsOf places m e * 10 ^ (-(places : ℤ)) := by
      rw [zpow_neg, zpow_natCast, div_eq_mul_inv, Nat.cast_pow, Nat.cast_ofNat]
    rw [hdecimal] at hrounds hclosest
    have hparts := ofFloat_floatOfBits negative hc'
    refine ⟨_, ?_, fixedText_eq h hparts (unitsOf_of_closer hclosest) fun _ => rfl, ?_,
      Float.isFinite_of_ofFloat hparts⟩
    · rw [hread, bne_iff_ne.2 hunits, Bool.and_true]
      exact congrArg some (nearestDecimal_eq negative hc' hm' hrounds)
    · intro hzero
      rw [hzero, show Binary.ofFloat (-0.0) = .finite true 0 (-1074) by decide] at hparts
      cases hparts
      exact lt_irrefl 0 hm'

/-- The names of numbers that are not finite are read as these. -/
theorem exists_read_name (places : ℕ) (h : Scalar.isFinite x = false) :
    ∃ y, readFloat? (fixedText places x) = some y ∧ fixedText places y = fixedText places x ∧ y ≠ -0.0 ∧
      Scalar.isFinite y = false := by
  cases hx : Binary.ofFloat x with
  | nan =>
    have hname : fixedText places x = "nan" := by simp only [fixedText, hx]
    have hnan : fixedText places Scalar.nan = "nan" := by simp only [fixedText, ofFloat_nan]
    rw [hname]
    exact ⟨Scalar.nan, by decide +kernel, hnan, by decide, by decide⟩
  | infinite negative =>
    have hname : fixedText places x = if negative then "-inf" else "inf" := by simp only [fixedText, hx]
    rw [hname]
    cases negative with
    | true =>
      have hinf : Binary.ofFloat (-Scalar.inf) = .infinite true := by decide
      exact ⟨-Scalar.inf, by decide +kernel, by simp only [fixedText, hinf], by decide, by decide⟩
    | false =>
      have hinf : Binary.ofFloat Scalar.inf = .infinite false := by decide
      exact ⟨Scalar.inf, by decide +kernel, by simp only [fixedText, hinf], by decide, by decide⟩
  | finite negative m e => exact absurd (Float.isFinite_of_ofFloat hx) (by simp [h])

end Finite

end Decimal

/-! ## §4 Texts of all numbers -/

namespace Scalar

open Decimal

/-- What is read of the text of a number is a number with the same text, and so many decimals can be asked for both of
them or for neither. It is never the negative zero. The text of a finite number is a decimal with so many decimals that
differs from the number by at most half a unit of the last of them, and zero is shown without a sign. -/
theorem text_read (places : ℕ) (x : Float) :
    ∃ y, read? (text places x) = some y ∧ text places y = text places x ∧
      (withDecimals places [y] fun k => text k y) = (withDecimals places [x] fun k => text k x) ∧ y ≠ -0.0 ∧
      (isFinite x = true →
        ∃ q, Denotes places (text places x) q ∧ |q - Float.value x| ≤ 10 ^ (-(places : ℤ)) / 2) := by
  have hrefused : ∀ {y : Float}, isFinite y = isFinite x → text places y = text places x →
      (withDecimals places [y] fun k => text k y) = withDecimals places [x] fun k => text k x := by
    intro y hfinite htext
    unfold withDecimals
    rw [List.any_cons, List.any_cons, hfinite, Int.toNat_natCast]
    dsimp only
    rw [htext]
  cases hx : isFinite x with
  | false =>
    obtain ⟨y, hread, htext, hzero, hy⟩ := exists_read_name places hx
    exact ⟨y, hread, htext, hrefused (hy.trans hx.symm) htext, hzero, nofun⟩
  | true =>
    obtain ⟨negative, m, e, hparts⟩ := exists_of_isFinite hx
    obtain ⟨y, hread, htext, hzero, hy⟩ := exists_read_fixedText places hparts
    exact ⟨y, hread, htext, hrefused (hy.trans hx.symm) htext, hzero, fun _ => exists_denotes places hparts⟩

/-- One eighth lies in the middle between two decimals of two places. The even one is written, the number that is read
of it is not one eighth, and is written in the same way. -/
theorem text_read_eighth :
    isFinite (0.125 : Float) = true ∧
    (∃ y, read? (text 2 0.125) = some y ∧ text 2 y = text 2 0.125 ∧ y ≠ -0.0) ∧
    ∃ q, Denotes 2 (text 2 0.125) q ∧ |q - Float.value 0.125| ≤ 10 ^ (-((2 : ℕ) : ℤ)) / 2 := by
  have hfinite : isFinite (0.125 : Float) = true := by decide
  obtain ⟨y, hread, htext, -, hzero, hdecimal⟩ := text_read 2 0.125
  exact ⟨hfinite, ⟨y, hread, htext, hzero⟩, hdecimal hfinite⟩

end Scalar

end FuzzyInference
