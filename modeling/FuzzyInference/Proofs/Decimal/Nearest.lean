import FuzzyInference.Proofs.Decimal.Digits
import FuzzyInference.Proofs.Silence
import Mathlib

/-!
# The nearest number

The floating-point number nearest to a fraction is found in whole numbers: the exponent is the logarithm of
the fraction, and the significand the fraction in units of the last place, rounded. Every fraction that lies
between the halfway points to the neighbours of a number is rounded to this number, the halfway points
themselves where the significand is even. Below a power of two the halfway point is closer, and what lies
there gets its exponent from the rounding.

The plan of this module:

* powers and logarithms of fractions;
* rounded quotients;
* numbers taken apart;
* the fractions that are rounded to a number.

## Main statements

* `log2Ratio_eq`, `log10Ratio_eq`: logarithms of fractions
* `nearestFloat_eq`: fractions that are rounded to a number
* `nearestDecimal_eq`: digits and exponents that are rounded to a number
-/

namespace FuzzyInference.Decimal

/-! ## §1 Powers and logarithms of fractions -/

/-- One of the two powers is one. -/
theorem zpow_eq_div (b : ℚ) (k : ℤ) : b ^ k = b ^ k.toNat / b ^ (-k).toNat := by
  rcases le_total 0 k with hk | hk
  · obtain ⟨n, rfl⟩ := Int.eq_ofNat_of_zero_le hk
    simp
  · obtain ⟨n, rfl⟩ : ∃ n : ℕ, k = -n := ⟨(-k).toNat, by omega⟩
    simp

/-- Fractions are compared with powers in whole numbers. -/
theorem pow_le_ratio_iff {b num den : ℕ} (hb : 0 < b) (hden : 0 < den) (k : ℤ) :
    den * b ^ k.toNat ≤ num * b ^ (-k).toNat ↔ (b : ℚ) ^ k ≤ num / den := by
  have hbq : (0 : ℚ) < b := by exact_mod_cast hb
  have hdenq : (0 : ℚ) < den := by exact_mod_cast hden
  rw [zpow_eq_div, div_le_div_iff₀ (by positivity) hdenq, mul_comm]
  exact_mod_cast Iff.rfl

theorem fractionOf_ratio (m : ℕ) (e : ℤ) :
    ((fractionOf m e).1 : ℚ) / (fractionOf m e).2 = m * 2 ^ e := by
  have hpow := zpow_eq_div 2 e
  simp only [fractionOf, Nat.pow_eq]
  push_cast
  rw [hpow, mul_div_assoc]

theorem fractionOf_den_pos (m : ℕ) (e : ℤ) : 0 < (fractionOf m e).2 := by
  simp only [fractionOf, Nat.pow_eq]
  positivity

theorem scaleTen_ratio (num den : ℕ) (k : ℤ) :
    ((scaleTen num den k).1 : ℚ) / (scaleTen num den k).2 = num / den * 10 ^ k := by
  have hpow := zpow_eq_div 10 k
  simp only [scaleTen, Nat.pow_eq]
  push_cast
  rw [hpow, mul_div_mul_comm]

/-- A logarithm lies between two powers. -/
theorem log_eq {b : ℕ} (hb : 1 < b) {q : ℚ} (hq : 0 < q) {k : ℤ} (hle : (b : ℚ) ^ k ≤ q)
    (hlt : q < (b : ℚ) ^ (k + 1)) : Int.log b q = k := by
  have hlow := (Int.zpow_le_iff_le_log hb hq).1 hle
  have hhigh := (Int.lt_zpow_iff_log_lt hb hq).1 hlt
  omega

/-- A fraction lies between the powers next to the quotient of the powers below its parts. -/
theorem ratio_bounds {num den l m : ℕ} (hden : 0 < den) (hl : 2 ^ l ≤ num) (hl' : num < 2 ^ (l + 1))
    (hm : 2 ^ m ≤ den) (hm' : den < 2 ^ (m + 1)) :
    (2 : ℚ) ^ ((l : ℤ) - m - 1) ≤ num / den ∧ (num : ℚ) / den < 2 ^ ((l : ℤ) - m + 1) := by
  have hdenq : (0 : ℚ) < den := by exact_mod_cast hden
  have hlq : (2 : ℚ) ^ l ≤ num := by exact_mod_cast hl
  have hlq' : (num : ℚ) < 2 ^ (l + 1) := by exact_mod_cast hl'
  have hmq : (2 : ℚ) ^ m ≤ den := by exact_mod_cast hm
  have hmq' : (den : ℚ) < 2 ^ (m + 1) := by exact_mod_cast hm'
  have hlow : (2 : ℚ) ^ ((l : ℤ) - m - 1) = 2 ^ l / 2 ^ (m + 1) := by
    rw [sub_sub, zpow_sub₀ two_ne_zero]
    norm_cast
  have hhigh : (2 : ℚ) ^ ((l : ℤ) - m + 1) = 2 ^ (l + 1) / 2 ^ m := by
    rw [sub_add_eq_add_sub, zpow_sub₀ two_ne_zero]
    norm_cast
  rw [hlow, hhigh]
  constructor
  · exact div_le_div₀ (by positivity) hlq hdenq hmq'.le
  · exact div_lt_div₀ hlq' hmq (by positivity) (by positivity)

theorem log2Ratio_eq {num den : ℕ} (hnum : 0 < num) (hden : 0 < den) :
    log2Ratio num den = Int.log 2 ((num : ℚ) / den) := by
  have hq : (0 : ℚ) < num / den := by positivity
  obtain ⟨hlow, hhigh⟩ := ratio_bounds hden (Nat.log2_self_le hnum.ne') Nat.lt_log2_self
    (Nat.log2_self_le hden.ne') Nat.lt_log2_self
  unfold log2Ratio
  dsimp only
  split
  · rename_i hle
    exact (log_eq one_lt_two hq ((pow_le_ratio_iff two_pos hden _).1 hle) hhigh).symm
  · rename_i hnot
    have hlt := mt (pow_le_ratio_iff two_pos hden _).2 hnot
    refine (log_eq one_lt_two hq hlow ?_).symm
    rw [sub_add_cancel]
    exact not_le.1 hlt

/-- The number of digits of a quotient rounded down tells the powers of ten around the quotient. -/
theorem quotient_bounds {a b : ℕ} (hb : 0 < b) (h : b ≤ a) :
    (10 : ℚ) ^ (digitCount (a / b) - 1) ≤ a / b ∧ (a : ℚ) / b < 10 ^ digitCount (a / b) := by
  have hbq : (0 : ℚ) < b := by exact_mod_cast hb
  have hne : a / b ≠ 0 := (Nat.div_pos h hb).ne'
  constructor
  · have hle : ((a / b : ℕ) : ℚ) ≤ a / b := Nat.cast_div_le
    refine le_trans ?_ hle
    exact_mod_cast pow_le_of_digitCount hne
  · rw [div_lt_iff₀ hbq]
    have hlt : a < (a / b + 1) * b := by
      rw [mul_comm]
      exact Nat.lt_mul_div_succ a hb
    have hpow : (a / b + 1) * b ≤ 10 ^ digitCount (a / b) * b :=
      Nat.mul_le_mul_right b (lt_pow_digitCount (a / b))
    exact_mod_cast lt_of_lt_of_le hlt hpow

theorem log10Ratio_eq {num den : ℕ} (hnum : 0 < num) (hden : 0 < den) :
    log10Ratio num den = Int.log 10 ((num : ℚ) / den) := by
  have hq : (0 : ℚ) < num / den := by positivity
  unfold log10Ratio
  split
  · rename_i hle
    obtain ⟨hlow, hhigh⟩ := quotient_bounds hden hle
    have hpos := digitCount_pos (Nat.div_pos hle hden).ne'
    refine (log_eq (by norm_num) hq ?_ ?_).symm
    · rw [← Nat.cast_pred hpos, zpow_natCast]
      exact hlow
    · rw [sub_add_cancel, zpow_natCast]
      exact hhigh
  · rename_i hnot
    have hle : num ≤ den := (not_le.1 hnot).le
    obtain ⟨hlow, hhigh⟩ := quotient_bounds hnum hle
    have hpos := digitCount_pos (Nat.div_pos hle hnum).ne'
    generalize digitCount (den / num) = n at hlow hhigh hpos ⊢
    have hinv : (num : ℚ) / den = ((den : ℚ) / num)⁻¹ := (inv_div _ _).symm
    have hbelow : (10 : ℚ) ^ (-(n : ℤ)) ≤ num / den := by
      rw [hinv, zpow_neg, zpow_natCast]
      exact inv_anti₀ (by positivity) hhigh.le
    have habove : (num : ℚ) / den ≤ 10 ^ (-((n : ℤ) - 1)) := by
      rw [hinv, zpow_neg, ← Nat.cast_pred hpos, zpow_natCast]
      exact inv_anti₀ (by positivity) hlow
    have hpow : den * 10 ^ (-((n : ℤ) - 1)).toNat ≤ num * 10 ^ (-(-((n : ℤ) - 1))).toNat ↔
        ((10 : ℕ) : ℚ) ^ (-((n : ℤ) - 1)) ≤ num / den := pow_le_ratio_iff (by norm_num) hden _
    rw [neg_neg, Int.toNat_of_nonpos (by omega), show ((n : ℤ) - 1).toNat = n - 1 by omega, pow_zero,
      mul_one] at hpow
    dsimp only
    split
    · -- the fraction is a power of ten
      rename_i hexact
      refine (log_eq (by norm_num) hq (hpow.1 hexact) (lt_of_le_of_lt habove ?_)).symm
      exact zpow_lt_zpow_right₀ (by norm_num) (lt_add_one _)
    · rename_i hinexact
      refine (log_eq (by norm_num) hq hbelow ?_).symm
      have hlt := not_le.1 (mt hpow.2 hinexact)
      rwa [neg_sub, sub_eq_neg_add] at hlt

theorem ten_pow_log_le {q : ℚ} (hq : 0 < q) : (10 : ℚ) ^ Int.log 10 q ≤ q := by
  exact_mod_cast Int.zpow_log_le_self (by norm_num : 1 < 10) hq

/-! ## §2 Rounded quotients -/

/-- The rounded quotient is at most one half away from the quotient. -/
theorem abs_sub_roundDiv (num : ℕ) {den : ℕ} (hden : 0 < den) : |(num : ℚ) / den - roundDiv num den| ≤ 1 / 2 := by
  have hdenq : (0 : ℚ) < den := by exact_mod_cast hden
  obtain ⟨hlow, hhigh⟩ := roundDiv_near num den hden
  have hlowq : 2 * (num : ℚ) ≤ 2 * (roundDiv num den * den) + den := by exact_mod_cast hlow
  have hhighq : 2 * ((roundDiv num den : ℚ) * den) ≤ 2 * num + den := by exact_mod_cast hhigh
  have hnum : (num : ℚ) = num / den * den := (div_mul_cancel₀ _ hdenq.ne').symm
  rw [abs_sub_le_iff]
  constructor
  · by_contra hgt
    nlinarith [not_le.1 hgt]
  · by_contra hgt
    nlinarith [not_le.1 hgt]

/-- Of two nearest whole numbers the even one. -/
theorem even_roundDiv {num den j : ℕ} (hden : 0 < den) (h : 2 * num = (2 * j + 1) * den) :
    roundDiv num den % 2 = 0 := by
  have hdiv : num / den = j := by
    refine Nat.div_eq_of_lt_le ?_ ?_
    · nlinarith
    · nlinarith
  have hmod : 2 * (num % den) = den := by
    have hsum := Nat.div_add_mod num den
    rw [hdiv] at hsum
    nlinarith
  unfold roundDiv
  dsimp only
  rw [if_neg (by omega), if_neg (by omega)]
  omega

/-- The rounded quotient is less than one away from what is less than one half away from the quotient. -/
theorem abs_roundDiv_sub (num m : ℕ) {den : ℕ} (hden : 0 < den) :
    |(roundDiv num den : ℚ) - m| ≤ 1 / 2 + |(num : ℚ) / den - m| := by
  have hnear := abs_sub_roundDiv num hden
  have htri := abs_sub_le (roundDiv num den : ℚ) (num / den) m
  rw [abs_sub_comm (roundDiv num den : ℚ) (num / den)] at htri
  linarith

/-- A quotient less than one half away from a whole number is rounded to it. -/
theorem roundDiv_eq {num den m : ℕ} (hden : 0 < den) (h : |(num : ℚ) / den - m| < 1 / 2) :
    roundDiv num den = m := by
  have hlt : |(roundDiv num den : ℚ) - m| < 1 := by linarith [abs_roundDiv_sub num m hden]
  have hint : |((roundDiv num den : ℤ) - m)| < 1 := by exact_mod_cast hlt
  have hbounds := abs_lt.1 hint
  omega

/-- A quotient one half away from an even number is rounded to it. -/
theorem roundDiv_eq_of_even {num den m : ℕ} (hden : 0 < den) (h : |(num : ℚ) / den - m| ≤ 1 / 2)
    (heven : m % 2 = 0) : roundDiv num den = m := by
  rcases h.lt_or_eq with hlt | htie
  · exact roundDiv_eq hden hlt
  · have hdenq : (0 : ℚ) < den := by exact_mod_cast hden
    have hnum : (num : ℚ) = num / den * den := (div_mul_cancel₀ _ hdenq.ne').symm
    have hround : roundDiv num den % 2 = 0 := by
      rcases (abs_eq (by norm_num)).1 htie with habove | hbelow
      · have hq : 2 * (num : ℚ) = (2 * m + 1) * den := by
          rw [hnum]
          linear_combination 2 * (den : ℚ) * habove
        exact even_roundDiv hden (by exact_mod_cast hq)
      · have hq : 2 * (num : ℚ) + den = 2 * m * den := by
          rw [hnum]
          linear_combination 2 * (den : ℚ) * hbelow
        have hnat : 2 * num + den = 2 * m * den := by exact_mod_cast hq
        obtain ⟨j, rfl⟩ : ∃ j, m = j + 1 := by
          refine Nat.exists_eq_succ_of_ne_zero ?_
          rintro rfl
          omega
        exact even_roundDiv (j := j) hden (by linarith)
    have hle : |(roundDiv num den : ℚ) - m| ≤ 1 := by linarith [abs_roundDiv_sub num m hden]
    have hint : |((roundDiv num den : ℤ) - m)| ≤ 1 := by exact_mod_cast hle
    have hbounds := abs_le.1 hint
    omega

/-! ## §3 Numbers taken apart -/

/-- What significands and exponents of finite numbers are: the significand has 53 bits, unless the exponent is
the least one. -/
structure IsCanonical (m : ℕ) (e : ℤ) : Prop where
  lt : m < 2 ^ 53
  least : -1074 ≤ e
  greatest : e ≤ 971
  normal : 2 ^ 52 ≤ m ∨ e = -1074

/-- The bits of a magnitude. -/
def magnitudeBits (m : ℕ) (e : ℤ) : ℕ := (e + 1074).toNat * 2 ^ 52 + m

theorem ofBits_toBits (x : Float) : Float.ofBits x.toBits = x := Float.ofModel_pack_unpack x

theorem isCanonical_of_ofFloat {x : Float} {negative : Bool} {m : ℕ} {e : ℤ}
    (h : Binary.ofFloat x = .finite negative m e) :
    IsCanonical m e ∧ floatOfBits negative (magnitudeBits m e) = x := by
  have hbits : x.toBits.toNat < 2 ^ 64 := x.toBits.toNat_lt
  have hofNat : UInt64.ofNat x.toBits.toNat = x.toBits := UInt64.ofNat_toNat
  have h63 : twoTo 63 = 9223372036854775808 := rfl
  have h52 : twoTo 52 = 4503599627370496 := rfl
  have h11 : twoTo 11 = 2048 := rfl
  have hinf : infinityBits = 9218868437227405312 := rfl
  rw [← ofBits_toBits x, ← hofNat]
  unfold Binary.ofFloat at h
  dsimp only at h
  unfold floatOfBits magnitudeBits
  rw [h63, h52, h11] at h
  rw [h63, hinf]
  generalize x.toBits.toNat = bits at h hbits ⊢
  split at h
  · split at h <;> cases h
  · rename_i hfinite
    split at h
    · -- zeros and subnormal numbers
      rename_i hzero
      cases h
      refine ⟨⟨by omega, by omega, by omega, .inr rfl⟩, congrArg (fun n => Float.ofBits (UInt64.ofNat n)) ?_⟩
      simp only [decide_eq_true_eq]
      split <;> omega
    · rename_i hnormal
      cases h
      refine ⟨⟨by omega, by omega, by omega, .inl (by omega)⟩,
        congrArg (fun n => Float.ofBits (UInt64.ofNat n)) ?_⟩
      simp only [decide_eq_true_eq]
      split <;> omega

theorem ofFloat_nan : Binary.ofFloat Scalar.nan = .nan := by decide

open Float.Model UnpackedFloat in
theorem toNat_unpackExponent (b : BitVec 64) :
    (@unpackExponent Format.binary64 b).toNat = b.toNat / 2 ^ 52 % 2 ^ 11 := by
  have h : @unpackExponent Format.binary64 b = b.extractLsb 62 52 := rfl
  rw [h, BitVec.extractLsb_toNat, Nat.shiftRight_eq_div_pow]

open Float.Model UnpackedFloat in
/-- A number is finite unless all bits of its exponent are ones. -/
theorem exists_of_isFinite {x : Float} (h : Scalar.isFinite x = true) :
    ∃ negative m e, Binary.ofFloat x = .finite negative m e := by
  unfold Binary.ofFloat
  dsimp only
  split
  · rename_i hones
    exfalso
    have hexponent : @unpackExponent Format.binary64 x.toModel.toBits.toBitVec = -1#_ := by
      apply BitVec.eq_of_toNat_eq
      rw [toNat_unpackExponent]
      exact hones
    rw [Float.isFinite_eq] at h
    unfold Float.Model.unpack UnpackedFloat.unpack at h
    simp only at h
    rw [if_pos hexponent] at h
    split at h <;> cases h
  · split
    · exact ⟨_, _, _, rfl⟩
    · exact ⟨_, _, _, rfl⟩

open Float.Model UnpackedFloat in
/-- The bits of a sign and a magnitude are kept: they are not those of `nan`, of which there is only one. -/
theorem toBits_ofBits {u : UInt64} (h : u.toNat % twoTo 63 ≤ infinityBits) : (Float.ofBits u).toBits = u := by
  have hinf : infinityBits = 9218868437227405312 := rfl
  have h63 : twoTo 63 = 9223372036854775808 := rfl
  rw [h63] at h
  -- only the bits of the infinities have an exponent of ones
  have hvalid : Format.binary64.Valid u.toBitVec := by
    refine ⟨fun hones hmantissa => absurd ?_ hmantissa⟩
    have hexponent := congrArg BitVec.toNat hones
    rw [toNat_unpackExponent] at hexponent
    have hnat : u.toBitVec.toNat = u.toNat := rfl
    have hlt : u.toNat < 2 ^ 64 := u.toNat_lt
    have hall : (-1#_ : BitVec Format.binary64.exponentBits).toNat = 2047 := rfl
    have hbits : u.toBitVec = BitVec.ofNat 64 infinityBits ∨
        u.toBitVec = BitVec.ofNat 64 (twoTo 63 + infinityBits) := by
      rcases lt_or_ge u.toNat (twoTo 63) with hlow | hhigh
      · left
        apply BitVec.eq_of_toNat_eq
        rw [BitVec.toNat_ofNat]
        omega
      · right
        apply BitVec.eq_of_toNat_eq
        rw [BitVec.toNat_ofNat]
        omega
    rcases hbits with hbits | hbits
    · rw [hbits]
      decide
    · rw [hbits]
      decide
  have hpack : UnpackedFloat.pack .binary64 (UnpackedFloat.unpack .binary64 u.toBitVec) = u.toBitVec :=
    pack_unpack_of_valid hvalid
  simp only [Float.toBits, Float.ofBits, Float.Model.ofBits, Float.Model.pack, hpack]

/-- The bits of a number with a sign and a magnitude. -/
theorem toNat_toBits_floatOfBits (negative : Bool) (magnitude : ℕ) :
    (floatOfBits negative magnitude).toBits.toNat =
      (if negative then twoTo 63 else 0) + min magnitude infinityBits := by
  have hinf : infinityBits = 9218868437227405312 := rfl
  have h63 : twoTo 63 = 9223372036854775808 := rfl
  have hsign : (if negative then twoTo 63 else 0) = 0 ∨ (if negative then twoTo 63 else 0) = twoTo 63 := by
    cases negative
    · exact .inl rfl
    · exact .inr rfl
  rw [floatOfBits]
  generalize (if negative then twoTo 63 else 0) = sign at hsign ⊢
  have hnat : (UInt64.ofNat (sign + min magnitude infinityBits)).toNat = sign + min magnitude infinityBits :=
    UInt64.toNat_ofNat_of_lt' (by simp only [UInt64.size]; omega)
  rw [toBits_ofBits (by rw [hnat, h63]; omega), hnat]

/-- The number with the bits of a magnitude and without a sign is not negative. -/
theorem negative_of_floatOfBits {magnitude m : ℕ} {negative : Bool} {e : ℤ}
    (h : Binary.ofFloat (floatOfBits false magnitude) = .finite negative m e) : negative = false := by
  have hinf : infinityBits = 9218868437227405312 := rfl
  have hbits : (floatOfBits false magnitude).toBits.toNat = min magnitude infinityBits := by
    rw [toNat_toBits_floatOfBits, if_neg Bool.false_ne_true, Nat.zero_add]
  have hsign : ¬twoTo 63 ≤ (floatOfBits false magnitude).toBits.toNat := by
    have h63 : twoTo 63 = 9223372036854775808 := rfl
    rw [hbits, h63]
    omega
  unfold Binary.ofFloat at h
  dsimp only at h
  split at h
  · split at h <;> cases h
  · split at h
    · cases h
      exact decide_eq_false hsign
    · cases h
      exact decide_eq_false hsign

/-! ## §4 Fractions that are rounded to a number -/

/-- The value lies between the ends, and is one of them only where the interval is closed. -/
def Inside (interval : ℕ × ℕ × Bool) (x : ℚ) : Prop :=
  if interval.2.2 then interval.1 ≤ x ∧ x ≤ interval.2.1 else interval.1 < x ∧ x < interval.2.1

/-- The fraction lies between the halfway points around a magnitude, in quarters of its last place. -/
def RoundsTo (m : ℕ) (e : ℤ) (q : ℚ) : Prop := Inside (roundingInterval m e) (q / 2 ^ (e - 2))

namespace RoundsTo

variable {m : ℕ} {e : ℤ} {q : ℚ}

theorem quarters (q : ℚ) (e : ℤ) : q / 2 ^ (e - 2) = 4 * (q / 2 ^ e) := by
  rw [zpow_sub₀ two_ne_zero]
  norm_num
  ring

theorem low_ge (hm : 0 < m) : 4 * (m : ℚ) - 2 ≤ (roundingInterval m e).1 := by
  unfold roundingInterval
  dsimp only
  split
  · rw [Nat.cast_sub (by omega)]
    push_cast
    linarith
  · rw [Nat.cast_sub (by omega)]
    push_cast
    exact le_refl _

/-- In units of the last place, the fraction is at most one half away from the significand, and less where this
is odd. -/
theorem near (hm : 0 < m) (h : RoundsTo m e q) :
    |q / 2 ^ e - m| ≤ 1 / 2 ∧ (m % 2 ≠ 0 → |q / 2 ^ e - m| < 1 / 2) := by
  have hlow := low_ge (e := e) hm
  have hhigh : ((roundingInterval m e).2.1 : ℚ) = 4 * m + 2 := by
    unfold roundingInterval
    push_cast
    rfl
  rw [RoundsTo, Inside, hhigh, quarters] at h
  split at h
  · rename_i hclosed
    have heven : m % 2 = 0 := by simpa [roundingInterval] using hclosed
    exact ⟨abs_le.2 ⟨by linarith, by linarith⟩, fun hodd => absurd heven hodd⟩
  · have hlt : |q / 2 ^ e - m| < 1 / 2 := abs_lt.2 ⟨by linarith, by linarith⟩
    exact ⟨hlt.le, fun _ => hlt⟩

/-- Below a power of two the fraction is at most one quarter away. -/
theorem quarter (h : RoundsTo (2 ^ 52) e q) (he : -1074 < e) : 2 ^ 52 - 1 / 4 ≤ q / 2 ^ e := by
  have hinterval : roundingInterval (2 ^ 52) e = (4 * 2 ^ 52 - 1, 4 * 2 ^ 52 + 2, true) := by
    simp [roundingInterval, he]
  rw [RoundsTo, Inside, hinterval, if_pos rfl, quarters] at h
  norm_num at h ⊢
  linarith

end RoundsTo

/-- Fractions in units of a power of two. -/
theorem unit_ratio (num den : ℕ) (u : ℤ) :
    ((num * twoTo (-u).toNat : ℕ) : ℚ) / (den * twoTo u.toNat : ℕ) = num / den / 2 ^ u := by
  have hpow := zpow_eq_div 2 u
  simp only [Nat.pow_eq]
  push_cast
  rw [hpow]
  field_simp

/-- The significand of a fraction in units that are not finer than the last place. -/
theorem roundDiv_unit {num den m : ℕ} {u : ℤ} (hden : 0 < den) (h : |(num : ℚ) / den / 2 ^ u - m| ≤ 1 / 2)
    (hodd : m % 2 ≠ 0 → |(num : ℚ) / den / 2 ^ u - m| < 1 / 2) :
    roundDiv (num * twoTo (-u).toNat) (den * twoTo u.toNat) = m := by
  have hpos : 0 < den * twoTo u.toNat := Nat.mul_pos hden (Nat.pow_pos two_pos)
  rw [← unit_ratio] at h hodd
  by_cases heven : m % 2 = 0
  · exact roundDiv_eq_of_even hpos h heven
  · exact roundDiv_eq hpos (hodd heven)

/-- A fraction is rounded in units of its last place, and a significand that gets too large goes over into the
exponent. -/
theorem nearestFloat_of_unit (negative : Bool) {num den m : ℕ} {u : ℤ} (hnum : 0 < num) (hden : 0 < den)
    (hunit : max (Int.log 2 ((num : ℚ) / den) - 52) (-1074) = u)
    (hround : roundDiv (num * twoTo (-u).toNat) (den * twoTo u.toNat) = m) :
    nearestFloat negative num den = floatOfBits negative (magnitudeBits m u) := by
  rw [nearestFloat, if_neg hnum.ne', log2Ratio_eq hnum hden]
  dsimp only
  rw [hunit, hround]
  rfl

namespace RoundsTo

variable {num den m : ℕ} {e : ℤ}

/-- A fraction that is rounded to a number is below the next power of two. -/
theorem lt_pow {q : ℚ} (h : RoundsTo m e q) (hm : 0 < m) (hm53 : m < 2 ^ 53) : q < 2 ^ (53 + e) := by
  have hbounds := abs_le.1 (h.near hm).1
  have hpow : (0 : ℚ) < 2 ^ e := by positivity
  have h53 : (2 : ℚ) ^ (53 : ℤ) = 2 ^ 53 := by norm_num
  have hle : ((m : ℚ) + 1) ≤ 2 ^ 53 := by exact_mod_cast hm53
  rw [zpow_add₀ two_ne_zero, ← div_lt_iff₀ hpow, h53]
  linarith

/-- The last place of a fraction is that of the number, unless the fraction is in the binade below. -/
theorem unit_eq (h : RoundsTo m e (num / den)) (hnum : 0 < num) (hden : 0 < den) (hc : IsCanonical m e)
    (hm : 0 < m) (hbinade : (2 : ℚ) ^ (52 + e) ≤ num / den ∨ e = -1074) :
    max (Int.log 2 ((num : ℚ) / den) - 52) (-1074) = e := by
  have hq : (0 : ℚ) < num / den := by positivity
  have hlt := (Int.lt_zpow_iff_log_lt one_lt_two hq).1 (h.lt_pow hm hc.lt)
  have hleast := hc.least
  rcases hbinade with hle | heq
  · have hge := (Int.zpow_le_iff_le_log one_lt_two hq).1 hle
    omega
  · omega

/-- What is in the binade below is rounded to a power of two. -/
theorem eq_pow (h : RoundsTo m e (num / den)) (hc : IsCanonical m e) (hm : 0 < m)
    (hbelow : (num : ℚ) / den < 2 ^ (52 + e)) (hleast : e ≠ -1074) : m = 2 ^ 52 := by
  have hbounds := abs_le.1 (h.near hm).1
  have hpow : (0 : ℚ) < 2 ^ e := by positivity
  have h52 : (2 : ℚ) ^ (52 : ℤ) = 2 ^ 52 := by norm_num
  rw [zpow_add₀ two_ne_zero, ← div_lt_iff₀ hpow, h52] at hbelow
  have hge : 2 ^ 52 ≤ m := hc.normal.resolve_right hleast
  have hlt : (m : ℚ) < 2 ^ 52 + 1 := by linarith
  have hltNat : m < 2 ^ 52 + 1 := by exact_mod_cast hlt
  omega

/-- The last place of a fraction in the binade below is half of that of the power of two. -/
theorem unit_below (h : RoundsTo (2 ^ 52) e (num / den)) (hnum : 0 < num) (hden : 0 < den)
    (hbelow : (num : ℚ) / den < 2 ^ (52 + e)) (he : -1074 < e) :
    max (Int.log 2 ((num : ℚ) / den) - 52) (-1074) = e - 1 := by
  have hq : (0 : ℚ) < num / den := by positivity
  have hpow : (0 : ℚ) < 2 ^ e := by positivity
  have hquarter := h.quarter he
  have hlow : (2 : ℚ) ^ (51 + e) ≤ num / den := by
    have h51 : (2 : ℚ) ^ (51 : ℤ) = 2 ^ 51 := by norm_num
    rw [zpow_add₀ two_ne_zero, ← le_div_iff₀ hpow, h51]
    linarith
  have hge := (Int.zpow_le_iff_le_log one_lt_two hq).1 hlow
  have hlt := (Int.lt_zpow_iff_log_lt one_lt_two hq).1 hbelow
  omega

/-- In its own last place, a fraction in the binade below is rounded to the next power of two. -/
theorem roundDiv_below (h : RoundsTo (2 ^ 52) e (num / den)) (hden : 0 < den)
    (hbelow : (num : ℚ) / den < 2 ^ (52 + e)) (he : -1074 < e) :
    roundDiv (num * twoTo (-(e - 1)).toNat) (den * twoTo (e - 1).toNat) = 2 ^ 53 := by
  have hpow : (0 : ℚ) < 2 ^ e := by positivity
  have h52 : (2 : ℚ) ^ (52 : ℤ) = 2 ^ 52 := by norm_num
  have hhalf : (num : ℚ) / den / 2 ^ (e - 1) = 2 * (num / den / 2 ^ e) := by
    rw [zpow_sub₀ two_ne_zero]
    field_simp
  have hquarter := h.quarter he
  rw [zpow_add₀ two_ne_zero, ← div_lt_iff₀ hpow, h52] at hbelow
  refine roundDiv_unit hden ?_ (fun hodd => absurd rfl hodd)
  rw [hhalf, abs_le]
  push_cast
  constructor
  · linarith
  · linarith

end RoundsTo

/-- Between the halfway points around a number all fractions are rounded to it. -/
theorem nearestFloat_eq (negative : Bool) {num den m : ℕ} {e : ℤ} (hnum : 0 < num) (hden : 0 < den)
    (hc : IsCanonical m e) (hm : 0 < m) (h : RoundsTo m e (num / den)) :
    nearestFloat negative num den = floatOfBits negative (magnitudeBits m e) := by
  by_cases hbinade : (2 : ℚ) ^ (52 + e) ≤ num / den ∨ e = -1074
  · obtain ⟨hnear, hodd⟩ := h.near hm
    exact nearestFloat_of_unit negative hnum hden (h.unit_eq hnum hden hc hm hbinade) (roundDiv_unit hden hnear hodd)
  · -- the fraction lies in the binade below and is rounded up to the power of two
    obtain ⟨hnot, hleast⟩ := not_or.1 hbinade
    have hbelow := not_le.1 hnot
    have he : -1074 < e := lt_of_le_of_ne hc.least (Ne.symm hleast)
    obtain rfl := h.eq_pow hc hm hbelow hleast
    have hcarry : magnitudeBits (2 ^ 53) (e - 1) = magnitudeBits (2 ^ 52) e := by
      rw [magnitudeBits, magnitudeBits, show (e + 1074).toNat = (e - 1 + 1074).toNat + 1 by omega]
      ring
    rw [nearestFloat_of_unit negative hnum hden (h.unit_below hnum hden hbelow he)
      (h.roundDiv_below hden hbelow he), hcarry]

/-! ### Digits and exponents -/

/-- What is rounded to a positive number is neither too small nor too large for its exponent. -/
theorem RoundsTo.bounds {m : ℕ} {e : ℤ} {q : ℚ} (hc : IsCanonical m e) (hm : 0 < m) (h : RoundsTo m e q) :
    (2 : ℚ) ^ (-1075 : ℤ) ≤ q ∧ q < 2 ^ (1024 : ℤ) := by
  have hbounds := abs_le.1 (h.near hm).1
  have hpow : (0 : ℚ) < 2 ^ e := by positivity
  have hq : q = q / 2 ^ e * 2 ^ e := (div_mul_cancel₀ q hpow.ne').symm
  have hone : (1 : ℚ) ≤ m := by exact_mod_cast hm
  have hm53 : (m : ℚ) + 1 ≤ 2 ^ 53 := by exact_mod_cast hc.lt
  constructor
  · calc (2 : ℚ) ^ (-1075 : ℤ) = 1 / 2 * 2 ^ (-1074 : ℤ) := by
          rw [show (-1075 : ℤ) = -1 + -1074 from rfl, zpow_add₀ two_ne_zero, zpow_neg_one, one_div]
      _ ≤ q / 2 ^ e * 2 ^ e :=
        mul_le_mul (by linarith) (zpow_le_zpow_right₀ one_le_two hc.least) (by positivity) (by linarith)
      _ = q := hq.symm
  · calc q = q / 2 ^ e * 2 ^ e := hq
      _ < 2 ^ 53 * 2 ^ (971 : ℤ) :=
        mul_lt_mul (by linarith) (zpow_le_zpow_right₀ one_le_two hc.greatest) hpow (by positivity)
      _ = 2 ^ (1024 : ℤ) := by
        rw [← zpow_natCast, ← zpow_add₀ two_ne_zero]
        rfl

/-- The exponent of the first of some digits tells the size of their value. -/
theorem digits_bounds {n : ℕ} (hn : n ≠ 0) (k : ℤ) :
    (10 : ℚ) ^ ((digitCount n : ℤ) + k - 1) ≤ n * 10 ^ k ∧ (n : ℚ) * 10 ^ k < 10 ^ ((digitCount n : ℤ) + k) := by
  have hlow : (10 : ℚ) ^ (digitCount n - 1) ≤ n := by exact_mod_cast pow_le_of_digitCount hn
  have hhigh : (n : ℚ) < 10 ^ digitCount n := by exact_mod_cast lt_pow_digitCount n
  have hpow : (0 : ℚ) < 10 ^ k := by positivity
  constructor
  · rw [add_sub_right_comm, zpow_add₀ (by norm_num), ← Nat.cast_pred (digitCount_pos hn), zpow_natCast]
    exact mul_le_mul_of_nonneg_right hlow hpow.le
  · rw [zpow_add₀ (by norm_num), zpow_natCast]
    exact mul_lt_mul_of_pos_right hhigh hpow

/-- The exponents that are answered without a power are beyond those of all numbers. -/
theorem limits : (10 : ℚ) ^ (-330 : ℤ) < 2 ^ (-1075 : ℤ) ∧ (2 : ℚ) ^ (1024 : ℤ) < 10 ^ (310 : ℤ) := by
  have hsmall : 2 ^ 1075 < 10 ^ 330 := by decide +kernel
  have hlarge : 2 ^ 1024 < 10 ^ 310 := by decide +kernel
  constructor
  · have hsmallq : ((2 ^ 1075 : ℕ) : ℚ) < (10 ^ 330 : ℕ) := Nat.cast_lt.2 hsmall
    rw [Nat.cast_pow, Nat.cast_pow, Nat.cast_ofNat, Nat.cast_ofNat] at hsmallq
    exact inv_strictAnti₀ (by positivity) hsmallq
  · have hlargeq : ((2 ^ 1024 : ℕ) : ℚ) < (10 ^ 310 : ℕ) := Nat.cast_lt.2 hlarge
    rw [Nat.cast_pow, Nat.cast_pow, Nat.cast_ofNat, Nat.cast_ofNat] at hlargeq
    exact hlargeq

/-- Between the halfway points around a number all digits and exponents are rounded to it. -/
theorem nearestDecimal_eq (negative : Bool) {n m : ℕ} {k e : ℤ} (hc : IsCanonical m e) (hm : 0 < m)
    (h : RoundsTo m e (n * 10 ^ k)) :
    nearestDecimal negative n k = floatOfBits negative (magnitudeBits m e) := by
  obtain ⟨hlow, hhigh⟩ := h.bounds hc hm
  have hn : n ≠ 0 := by
    rintro rfl
    rw [Nat.cast_zero, zero_mul] at hlow
    exact absurd hlow (not_le.2 (by positivity))
  obtain ⟨hfirst, hlast⟩ := digits_bounds hn k
  -- neither of the two answers that need no power is given
  have hsmall : -330 ≤ (digitCount n : ℤ) + k := by
    by_contra hlt
    have hpow : (10 : ℚ) ^ ((digitCount n : ℤ) + k) ≤ 10 ^ (-330 : ℤ) :=
      zpow_le_zpow_right₀ (by norm_num) (by omega)
    exact absurd (((hlow.trans_lt hlast).trans_le hpow).trans limits.1) (lt_irrefl _)
  have hlarge : (digitCount n : ℤ) + k ≤ 310 := by
    by_contra hgt
    have hpow : (10 : ℚ) ^ (310 : ℤ) ≤ 10 ^ ((digitCount n : ℤ) + k - 1) :=
      zpow_le_zpow_right₀ (by norm_num) (by omega)
    exact absurd (((hpow.trans hfirst).trans_lt hhigh).trans limits.2) (lt_irrefl _)
  have hscaled : (scaleTen n 1 k).1 / (scaleTen n 1 k).2 = (n : ℚ) * 10 ^ k := by
    rw [scaleTen_ratio, Nat.cast_one, div_one]
  rw [nearestDecimal, if_neg (by simp [hn, hsmall]), if_neg (not_lt.2 hlarge)]
  dsimp only
  rw [← hscaled] at h
  refine nearestFloat_eq negative ?_ ?_ hc hm h
  · exact Nat.mul_pos (Nat.pos_of_ne_zero hn) (Nat.pow_pos (by norm_num))
  · exact Nat.mul_pos one_pos (Nat.pow_pos (by norm_num))

/-- What digits and an exponent are rounded to has the sign that is given. -/
theorem exists_floatOfBits (negative : Bool) (n : ℕ) (k : ℤ) :
    ∃ magnitude, nearestDecimal negative n k = floatOfBits negative magnitude := by
  unfold nearestDecimal
  split
  · exact ⟨_, rfl⟩
  · split
    · exact ⟨_, rfl⟩
    · dsimp only
      unfold nearestFloat
      split
      · exact ⟨_, rfl⟩
      · exact ⟨_, rfl⟩

end FuzzyInference.Decimal
