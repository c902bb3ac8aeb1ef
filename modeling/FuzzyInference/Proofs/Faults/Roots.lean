import FuzzyInference.Proofs.Faults.Steps
import FuzzyInference.Proofs.Range
import Mathlib

/-!
# Roots of floating-point numbers

Two hedges take square roots, of degrees that weights may have brought out of the unit interval. On
floating-point numbers the root faults exactly at the negative ones: it is defined everywhere else, and no
root of a finite number is too large.

The plan of this module:

* packed numbers that stay finite;
* roots, which are rounded once;
* the hedges that take them.

## Main statements

* `Float.applyFaults_sqrt_iff`: roots
* `Hedge.faults_somewhat_iff`, `Hedge.faults_seldom_iff`: hedges
-/

namespace FuzzyInference

open Float.Model Float.Model.UnpackedFloat

/-! ## §1 Packing -/

/-- Bits whose exponent is not the greatest one stand for a finite number. -/
theorem isFinite_unpack {b : BitVec Format.binary64.numBits} (h : unpackExponent b ≠ -1#_) :
    (UnpackedFloat.unpack Format.binary64 b).isFinite = true := by
  unfold UnpackedFloat.unpack
  dsimp only
  rw [if_neg h]
  split
  · split
    · rfl
    · rfl
  · rfl

/-- A number whose exponent is not too large stays finite when it is packed. -/
theorem isFinite_unpack_pack {s : Sign} {m : Nat} {e : Int} (hm : 0 < m) (he : e ≤ 971) :
    (pack (.finite s m e hm)).unpack.isFinite = true := by
  have hexp : ¬2 ^ Format.binary64.exponentBits ≤
      (e + Format.binary64.exponentBias + Format.binary64.mantissaBitsWithoutImplicit).toNat + 1 := by
    change ¬2 ^ 11 ≤ (e + (1023 : Nat) + (52 : Nat)).toNat + 1
    omega
  change (UnpackedFloat.unpack Format.binary64 (UnpackedFloat.pack Format.binary64
    (.finite s m e hm))).isFinite = true
  apply isFinite_unpack
  unfold UnpackedFloat.pack
  dsimp only
  rw [if_neg hexp]
  split
  · rw [unpackExponent_packComponents]
    intro hones
    have hnat := congrArg BitVec.toNat hones
    rw [BitVec.toNat_ofNat] at hnat
    change (e + (1023 : Nat) + (52 : Nat)).toNat % 2 ^ 11 = 2047 at hnat
    change ¬2 ^ 11 ≤ (e + (1023 : Nat) + (52 : Nat)).toNat + 1 at hexp
    omega
  · rw [unpackExponent_packComponents]
    decide

/-- The mantissa and the exponent of a finite number have as many bits as the format gives them; the mantissa has
all of its bits unless the exponent is the least one. -/
theorem canonical_of_unpack {x : Float.Model} {s : Sign} {m : Nat} {e : Int} {hm : 0 < m}
    (h : x.unpack = .finite s m e hm) :
    m < 2 ^ 53 ∧ -1074 ≤ e ∧ e ≤ 971 ∧ (2 ^ 52 ≤ m ∨ e = -1074) := by
  have hexponent := (@unpackExponent Format.binary64 x.toBits.toBitVec).isLt
  have hmantissa := (@unpackMantissa Format.binary64 x.toBits.toBitVec).isLt
  have hbias : Format.binary64.exponentBias = 1023 := rfl
  change _ < 2 ^ 11 at hexponent
  change _ < 2 ^ 52 at hmantissa
  generalize hu : UnpackedFloat.finite s m e hm = u at h
  delta Float.Model.unpack UnpackedFloat.unpack at h
  dsimp only at h
  rw [hbias] at h
  by_cases hones : @unpackExponent Format.binary64 x.toBits.toBitVec = -1#_
  · -- infinities and `nan`
    rw [if_pos hones] at h
    by_cases hmant : @unpackMantissa Format.binary64 x.toBits.toBitVec = 0#_
    · rw [if_pos hmant] at h
      cases hu.trans h.symm
    · rw [if_neg hmant] at h
      cases hu.trans h.symm
  · rw [if_neg hones] at h
    by_cases hzero : @unpackExponent Format.binary64 x.toBits.toBitVec = 0#_
    · -- zeros, and subnormal numbers, which have the least exponent and no implicit bit
      rw [if_pos hzero] at h
      have hnat : (@unpackExponent Format.binary64 x.toBits.toBitVec).toNat = 0 := congrArg BitVec.toNat hzero
      by_cases hmant : @unpackMantissa Format.binary64 x.toBits.toBitVec = 0#_
      · rw [dif_pos hmant] at h
        cases hu.trans h.symm
      · rw [dif_neg hmant] at h
        cases hu.trans h.symm
        rw [hnat]
        omega
    · -- normal numbers
      rw [if_neg hzero] at h
      have hpos : (@unpackExponent Format.binary64 x.toBits.toBitVec).toNat ≠ 0 :=
        fun hnat => hzero (BitVec.eq_of_toNat_eq hnat)
      have hne : (@unpackExponent Format.binary64 x.toBits.toBitVec).toNat ≠ 2047 :=
        fun hnat => hones (BitVec.eq_of_toNat_eq hnat)
      cases hu.trans h.symm
      have himplicit : 2 ^ 52 ≤ (1#1 ++ @unpackMantissa Format.binary64 x.toBits.toBitVec).toNat := by
        rw [BitVec.toNat_append]
        exact Nat.left_le_or
      refine ⟨BitVec.isLt _, ?_, ?_, .inl himplicit⟩
      · omega
      · omega

theorem bounds_of_unpack {x : Float.Model} {s : Sign} {m : Nat} {e : Int} {hm : 0 < m}
    (h : x.unpack = .finite s m e hm) : m < 2 ^ 53 ∧ -1074 ≤ e ∧ e ≤ 971 := by
  obtain ⟨hmantissa, hlow, hhigh, -⟩ := canonical_of_unpack h
  exact ⟨hmantissa, hlow, hhigh⟩

/-! ## §2 Rounding -/

theorem mantissa_shiftRight (em : ExtendedMantissa) (n : Nat) : (em >>> n).mantissa = em.mantissa / 2 ^ n := by
  change (Nat.repeat ExtendedMantissa.shiftRightOne n em).mantissa = em.mantissa / 2 ^ n
  induction n with
  | zero => simp [Nat.repeat]
  | succ n ih =>
    rw [Nat.pow_succ, ← Nat.div_div_eq_div_mul, ← ih]
    rfl

theorem mantissa_ofMantissaAndAccuracy (m : Nat) (a : Accuracy) :
    (ExtendedMantissa.ofMantissaAndAccuracy m a).mantissa = m := by
  cases a with
  | exact => rfl
  | inexact o => cases o <;> rfl

theorem roundToNearestEven_le (m : Nat) (a : Accuracy) : a.roundToNearestEven m ≤ m + 1 := by
  cases a with
  | exact => exact Nat.le_succ m
  | inexact o =>
    cases o with
    | lt => exact Nat.le_succ m
    | eq =>
      change m + m % 2 ≤ m + 1
      omega
    | gt => exact Nat.le_refl _

theorem targetExponent_eq (t : Int) : Format.binary64.targetExponent t = max (t - 53) (-1074) := rfl

theorem snd_shiftToTargetExponent (m : Nat) (e : Int) (a : Accuracy) :
    (shiftToTargetExponent Format.binary64 m e a).2 = max e (max (m.log2 + 1 + e - 53) (-1074)) := by
  unfold shiftToTargetExponent shiftToExponent totalExponent
  rw [targetExponent_eq]
  dsimp only
  omega

theorem mantissa_shiftToTargetExponent (m : Nat) (e : Int) (a : Accuracy) :
    (shiftToTargetExponent Format.binary64 m e a).1.mantissa =
      m / 2 ^ (max (m.log2 + 1 + e - 53) (-1074) - e).toNat := by
  unfold shiftToTargetExponent shiftToExponent totalExponent
  rw [targetExponent_eq]
  dsimp only
  rw [mantissa_shiftRight, mantissa_ofMantissaAndAccuracy]

theorem roundedMantissa_shift_le (m : Nat) (e : Int) (a : Accuracy) :
    (shiftToTargetExponent Format.binary64 m e a).1.roundedMantissa ≤ m + 1 := by
  refine Nat.le_trans (roundToNearestEven_le _ _) (Nat.succ_le_succ ?_)
  rw [mantissa_shiftToTargetExponent]
  exact Nat.div_le_self _ _

/-- A mantissa and an exponent far below the greatest ones are rounded to a finite number. -/
theorem isFinite_roundWithAccuracy (s : Sign) {m : Nat} {e : Int} (hm : m.log2 ≤ 160) (he : e ≤ 600)
    (a : Accuracy) : (pack (roundWithAccuracy Format.binary64 s m e a)).unpack.isFinite = true := by
  -- rounding may carry into one more bit, which is why the mantissa is shifted a second time
  have hexp := snd_shiftToTargetExponent m e a
  have hmant := roundedMantissa_shift_le m e a
  unfold roundWithAccuracy
  generalize shiftToTargetExponent Format.binary64 m e a = first at hexp hmant ⊢
  obtain ⟨em, e₁⟩ := first
  dsimp only at hexp hmant ⊢
  have hexp₂ := snd_shiftToTargetExponent em.roundedMantissa e₁ .exact
  generalize shiftToTargetExponent Format.binary64 em.roundedMantissa e₁ .exact = second at hexp₂ ⊢
  obtain ⟨em₂, e₂⟩ := second
  dsimp only at hexp₂ ⊢
  have hlog : em.roundedMantissa.log2 ≤ m.log2 + 1 := by
    have hlt : em.roundedMantissa < 2 ^ (m.log2 + 2) := by
      have hself := @Nat.lt_log2_self m
      rw [Nat.pow_succ]
      omega
    by_cases hzero : em.roundedMantissa = 0
    · rw [hzero]
      exact Nat.zero_le _
    · have := (Nat.log2_lt hzero).2 hlt
      omega
  split
  · cases s <;> decide
  · exact isFinite_unpack_pack _ (by omega)

/-! ## §3 Roots -/

theorem isFinite_sqrt {x : Float.Model} {m : Nat} {e : Int} {hm : 0 < m}
    (h : x.unpack = .finite .positive m e hm) : x.sqrt.unpack.isFinite = true := by
  obtain ⟨hmant, hlow, hhigh⟩ := bounds_of_unpack h
  unfold Float.Model.sqrt
  rw [h]
  unfold UnpackedFloat.sqrt
  dsimp only
  have hlog : m.log2 ≤ 52 := Nat.le_of_lt_succ ((Nat.log2_lt (by omega)).2 hmant)
  unfold sqrtCore
  dsimp only
  -- the argument is shifted by about a hundred bits at most, until its root fills the mantissa
  have htarget : ∀ t, t = min (e.ediv 2) (Format.binary64.targetExponent ((totalExponent m e + 1).ediv 2)) →
      t ≤ 485 ∧ e - 2 * t ≤ 107 := by
    intro t ht
    rw [targetExponent_eq, totalExponent] at ht
    change t = min (e / 2) (max (((m.log2 : Int) + 1 + e + 1) / 2 - 53) (-1074)) at ht
    omega
  generalize ht : min (e.ediv 2) (Format.binary64.targetExponent ((totalExponent m e + 1).ediv 2)) = t
  obtain ⟨hle, hshift⟩ := htarget t ht.symm
  refine isFinite_roundWithAccuracy .positive ?_ (by omega) _
  have hroot : (m <<< (e - 2 * t).toNat).sqrt < 2 ^ 160 := by
    have hshifted : m <<< (e - 2 * t).toNat < 2 ^ 160 := by
      rw [Nat.shiftLeft_eq]
      calc m * 2 ^ (e - 2 * t).toNat < 2 ^ 53 * 2 ^ (e - 2 * t).toNat :=
            Nat.mul_lt_mul_of_pos_right hmant (Nat.two_pow_pos _)
        _ ≤ 2 ^ 53 * 2 ^ 107 := Nat.mul_le_mul_left _ (Nat.pow_le_pow_right (by decide) (by omega))
        _ = 2 ^ 160 := by rw [← Nat.pow_add]
    have hself : (m <<< (e - 2 * t).toNat).sqrt ≤ m <<< (e - 2 * t).toNat :=
      Nat.le_trans (Nat.le_mul_self _) (Nat.sqrt_le _)
    exact Nat.lt_of_le_of_lt hself hshifted
  by_cases hzero : (m <<< (e - 2 * t).toNat).sqrt = 0
  · rw [hzero]
    decide
  · exact Nat.le_of_lt ((Nat.log2_lt hzero).2 hroot)


/-- The root is undefined for negative numbers, and finite for all other finite ones. -/
theorem sqrt_spec (x : Float.Model) :
    (x.sqrt.unpack.isNaN && !x.unpack.isNaN) = (x.unpack.compare (.zero .positive) == some .lt) ∧
      (x.sqrt.unpack.isInf && x.unpack.isFinite) = false := by
  have hsqrt : x.sqrt = pack (UnpackedFloat.sqrt Format.binary64 x.unpack) := rfl
  cases h : x.unpack with
  | notANumber =>
    rw [hsqrt, h]
    decide
  | infinity s =>
    rw [hsqrt, h]
    cases s <;> decide
  | zero s =>
    rw [hsqrt, h]
    cases s <;> decide
  | finite s m e hm =>
    cases s with
    | negative =>
      have hnan : x.sqrt.unpack.isNaN = true := by
        rw [hsqrt, h]
        change (pack .notANumber).unpack.isNaN = true
        decide
      generalize x.sqrt.unpack = root at hnan ⊢
      cases root with
      | notANumber => exact ⟨rfl, rfl⟩
      | infinity s => cases hnan
      | zero s => cases hnan
      | finite s m e hm => cases hnan
    | positive =>
      have hfinite := isFinite_sqrt h
      generalize x.sqrt.unpack = root at hfinite ⊢
      cases root with
      | notANumber => cases hfinite
      | infinity s => cases hfinite
      | zero s => exact ⟨rfl, rfl⟩
      | finite s m e hm => exact ⟨rfl, rfl⟩

namespace Float

variable {x y : Float}

theorem isNaN_eq (x : Float) : Scalar.isNaN x = x.toModel.unpack.isNaN := by
  have hself : (x != x) = !(x.toModel.unpack.compare x.toModel.unpack == some .eq) := rfl
  rw [Scalar.isNaN, hself]
  cases hx : x.toModel.unpack with
  | notANumber => rfl
  | infinity s => cases s <;> rfl
  | zero s => rfl
  | finite s m e hm =>
    have hcompare : ∃ o, (UnpackedFloat.finite s m e hm).compare (.finite s m e hm) = some o := by
      cases s <;> exact ⟨_, rfl⟩
    obtain ⟨o, ho⟩ := hcompare
    rw [compare_self ho]
    rfl

theorem isInf_eq (x : Float) : Scalar.isInf x = x.toModel.unpack.isInf := by
  have hinf : Scalar.isInf x = (x.toModel.unpack.compare (.infinity .positive) == some .eq ||
      x.toModel.unpack.compare (.infinity .negative) == some .eq) := rfl
  rw [hinf]
  cases x.toModel.unpack with
  | infinity s => cases s <;> rfl
  | notANumber => rfl
  | zero s => rfl
  | finite s m e hm => cases s <;> rfl

theorem isFinite_eq (x : Float) : Scalar.isFinite x = x.toModel.unpack.isFinite := by
  rw [Scalar.isFinite, isNaN_eq, isInf_eq]
  cases x.toModel.unpack <;> rfl

/-- Only negative numbers have no root. -/
theorem applyFaults_sqrt_iff {f : Fault} : Scalar.ApplyFaults .sqrt x f ↔ x < 0.0 ∧ f = .domain := by
  have hroot : (Scalar.elementary .sqrt x : Float).toModel = x.toModel.sqrt := rfl
  have hzero : (0.0 : Float).toModel.unpack = .zero .positive := rfl
  obtain ⟨hnan, hinf⟩ := sqrt_spec x.toModel
  rw [Scalar.ApplyFaults, lt_iff, hzero, isNaN_eq, isNaN_eq, isInf_eq, isFinite_eq, hroot, hnan, hinf,
    beq_iff_eq]
  simp

end Float

namespace Hedge

variable {x : Float} {f : Fault}

theorem faults_somewhat_iff : somewhat.Faults x f ↔ x < 0.0 ∧ f = .domain := Float.applyFaults_sqrt_iff

/-- The root is taken of half the distance from the degree to the nearer end of the unit interval. -/
theorem faults_seldom_iff :
    seldom.Faults x f ↔ (if x ≤ 0.5 then 0.5 * x < 0.0 else 0.5 * (1.0 - x) < 0.0) ∧ f = .domain := by
  refine Float.applyFaults_sqrt_iff.trans (and_congr_left fun _ => ?_)
  split <;> rfl

end Hedge

end FuzzyInference
