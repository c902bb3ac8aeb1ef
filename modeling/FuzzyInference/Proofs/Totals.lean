import FuzzyInference.Proofs.Selection
import FuzzyInference.Proofs.Silence

/-!
# Totals of positive degrees

A proportional method divides the degrees that are greater than zero by more than the tolerance by their
total, and does so only where the total passes the same test. On floating-point numbers a sum of such degrees
always passes it, although every addition is rounded: rounding keeps as many bits as a number of the least
such size has, and two numbers of that size add up to one of a greater exponent.

The plan of this module:

* rounding a sum that has more bits than the format;
* packing a number that has all of its bits;
* sums of positive numbers, and totals of degrees.

## Main statements

* `Float.above_add`: the sum of two degrees
* `Activation.above_sumOfDegrees`: the total of some degrees
-/

namespace FuzzyInference

open Float.Model UnpackedFloat
open Scalar

/-! ## §1 Rounding -/

theorem le_roundToNearestEven (m : Nat) (a : Accuracy) : m ≤ a.roundToNearestEven m := by
  cases a with
  | exact => exact Nat.le_refl m
  | inexact o =>
    cases o with
    | lt => exact Nat.le_refl m
    | eq => exact Nat.le_add_right m _
    | gt => exact Nat.le_succ m

/-- A number of 53 bits and some more has 53 bits after these are shifted out. -/
theorem div_two_pow_bounds {m k : Nat} (hlow : 2 ^ (52 + k) ≤ m) (hhigh : m < 2 ^ (53 + k)) :
    2 ^ 52 ≤ m / 2 ^ k ∧ m / 2 ^ k < 2 ^ 53 := by
  constructor
  · rw [Nat.le_div_iff_mul_le (Nat.two_pow_pos k), ← Nat.pow_add]
    exact hlow
  · rw [Nat.div_lt_iff_lt_mul (Nat.two_pow_pos k), ← Nat.pow_add]
    exact hhigh

/-- The bits that are too many for the format are shifted out. -/
theorem shiftToTargetExponent_of_log2 {m k : Nat} {e : Int} (hlog : m.log2 = 52 + k) (he : -1074 ≤ e)
    (a : Accuracy) :
    shiftToTargetExponent Format.binary64 m e a =
      (ExtendedMantissa.ofMantissaAndAccuracy m a >>> k, e + k) := by
  unfold shiftToTargetExponent shiftToExponent totalExponent
  rw [targetExponent_eq]
  dsimp only
  rw [show (max ((m.log2 : Int) + 1 + e - 53) (-1074) - e).toNat = k by omega]

/-- A number that has more bits than the format misses none. -/
theorem decreaseExponent_of_le {m : Nat} (hlog : 53 ≤ m.log2) (e : Int) :
    decreaseExponent m e (Format.binary64.targetExponent (totalExponent m e)) = (m, e) := by
  unfold decreaseExponent totalExponent
  rw [targetExponent_eq, show (e - max ((m.log2 : Int) + 1 + e - 53) (-1074)).toNat = 0 by omega]
  simp

/-- Shifting a number that has more bits than the format leaves as many bits as the format has, and an exponent
that is greater by what is shifted out. -/
theorem shift_of_le {m : Nat} {e : Int} (hm : 2 ^ 53 ≤ m) (he : -1074 ≤ e) (a : Accuracy) :
    2 ^ 52 ≤ (shiftToTargetExponent Format.binary64 m e a).1.mantissa ∧
      (shiftToTargetExponent Format.binary64 m e a).1.mantissa < 2 ^ 53 ∧
      (shiftToTargetExponent Format.binary64 m e a).2 = e + m.log2 - 52 := by
  have hne : m ≠ 0 := by omega
  have hlog : 53 ≤ m.log2 := (Nat.le_log2 hne).2 hm
  obtain ⟨k, hk⟩ := Nat.exists_eq_add_of_le (show 52 ≤ m.log2 by omega)
  obtain ⟨hlow, hhigh⟩ := div_two_pow_bounds (m := m) (k := k)
    (by rw [← hk]; exact Nat.log2_self_le hne)
    (by rw [show 53 + k = m.log2 + 1 by omega]; exact Nat.lt_log2_self)
  rw [shiftToTargetExponent_of_log2 hk he, mantissa_shiftRight, mantissa_ofMantissaAndAccuracy]
  exact ⟨hlow, hhigh, by omega⟩

/-- Shifting a number that has as many bits as the format, or was carried into one more, leaves as many. -/
theorem shift_of_carried {m : Nat} {e : Int} (hlow : 2 ^ 52 ≤ m) (hhigh : m ≤ 2 ^ 53) (he : -1074 ≤ e)
    (a : Accuracy) :
    2 ^ 52 ≤ (shiftToTargetExponent Format.binary64 m e a).1.mantissa ∧
      (shiftToTargetExponent Format.binary64 m e a).1.mantissa < 2 ^ 53 ∧
      e ≤ (shiftToTargetExponent Format.binary64 m e a).2 ∧
      (shiftToTargetExponent Format.binary64 m e a).2 ≤ e + 1 := by
  rcases hhigh.eq_or_lt with hcarried | hlt
  · obtain ⟨hleast, hmost, hexp⟩ := shift_of_le hcarried.ge he a
    have hlog : m.log2 = 53 := by
      rw [hcarried]
      rfl
    rw [hlog] at hexp
    exact ⟨hleast, hmost, by omega, by omega⟩
  · have hlog : m.log2 = 52 + 0 := by
      rw [Nat.log2_eq_iff (by omega)]
      exact ⟨hlow, hlt⟩
    rw [shiftToTargetExponent_of_log2 hlog he, mantissa_shiftRight, mantissa_ofMantissaAndAccuracy, Nat.pow_zero,
      Nat.div_one]
    exact ⟨hlow, hlt, by omega, by omega⟩

/-- A number that has more bits than the format is rounded to one that has as many, and a greater exponent, by one
more than what is shifted out if rounding carries. -/
theorem exists_round (s : Sign) {m : Nat} {e : Int} (hm : 2 ^ 53 ≤ m) (he : -1074 ≤ e) :
    ∃ n f h, UnpackedFloat.round Format.binary64 s m e = .finite s n f h ∧
      2 ^ 52 ≤ n ∧ n < 2 ^ 53 ∧ e < f ∧ f ≤ e + m.log2 - 51 := by
  have hlog : 53 ≤ m.log2 := (Nat.le_log2 (by omega)).2 hm
  obtain ⟨hlow, hhigh, hexp⟩ := shift_of_le hm he .exact
  unfold UnpackedFloat.round
  dsimp only
  rw [decreaseExponent_of_le hlog]
  unfold roundWithAccuracy
  generalize shiftToTargetExponent Format.binary64 m e .exact = first at hlow hhigh hexp ⊢
  obtain ⟨em, e₁⟩ := first
  dsimp only at hlow hhigh hexp ⊢
  -- rounding may carry into one more bit, which is why the mantissa is shifted a second time
  have hleast : em.mantissa ≤ em.roundedMantissa := le_roundToNearestEven _ _
  have hmost : em.roundedMantissa ≤ em.mantissa + 1 := roundToNearestEven_le _ _
  obtain ⟨hlow₂, hhigh₂, hexp₂, hmost₂⟩ :=
    shift_of_carried (m := em.roundedMantissa) (e := e₁) (by omega) (by omega) (by omega) .exact
  generalize shiftToTargetExponent Format.binary64 em.roundedMantissa e₁ .exact = second
    at hlow₂ hhigh₂ hexp₂ hmost₂ ⊢
  obtain ⟨em₂, e₂⟩ := second
  dsimp only at hlow₂ hhigh₂ hexp₂ hmost₂ ⊢
  have hpos : ¬em₂.mantissa = 0 := by omega
  rw [dif_neg hpos]
  exact ⟨_, _, _, rfl, hlow₂, hhigh₂, by omega, by omega⟩

/-! ## §2 Packing -/

theorem unpackSign_packComponents {spec : Format} {s : Sign} {e : BitVec spec.exponentBits}
    {m : BitVec spec.mantissaBitsWithoutImplicit} : unpackSign (packComponents spec s e m) = s.toBitVec := by
  ext i hi
  have hzero : i = 0 := by omega
  subst hzero
  simp [unpackSign, packComponents, BitVec.getLsbD_eq_getElem, BitVec.getLsbD_append, BitVec.getElem_append]

theorem unpack_packedInfinity (s : Sign) :
    UnpackedFloat.unpack Format.binary64 (packedInfinity Format.binary64 s) = .infinity s := by
  cases s with
  | positive => rfl
  | negative => rfl

/-- Bits whose exponent is neither the least nor the greatest one stand for a finite number of this exponent. -/
theorem unpack_packComponents (s : Sign) (e : BitVec Format.binary64.exponentBits)
    (m : BitVec Format.binary64.mantissaBitsWithoutImplicit) (hones : e ≠ -1#_) (hzero : e ≠ 0#_) :
    ∃ n h, UnpackedFloat.unpack Format.binary64 (packComponents Format.binary64 s e m) =
      .finite s n (e.toNat - 1075) h := by
  have hsign : Sign.ofBitVec s.toBitVec = s := by cases s <;> rfl
  unfold UnpackedFloat.unpack
  simp only [unpackExponent_packComponents, unpackMantissa_packComponents, unpackSign_packComponents, hsign]
  rw [if_neg hones, if_neg hzero]
  have hpos : 0 < (1#1 ++ m).toNat := by
    rw [BitVec.toNat_append]
    exact Nat.lt_of_lt_of_le (by decide) Nat.left_le_or
  exact ⟨(1#1 ++ m).toNat, hpos, rfl⟩

/-- A number that has as many bits as the format keeps its exponent when it is packed, unless it becomes
infinite. -/
theorem unpack_pack_cases (s : Sign) {m : Nat} {e : Int} (hm : 0 < m) (hlow : 2 ^ 52 ≤ m) (hhigh : m < 2 ^ 53)
    (he : -1074 ≤ e) :
    (pack (.finite s m e hm)).unpack = .infinity s ∨
      ∃ n h, (pack (.finite s m e hm)).unpack = .finite s n e h := by
  have hlog : m.log2 = 52 := by
    rw [Nat.log2_eq_iff (by omega)]
    exact ⟨hlow, hhigh⟩
  change UnpackedFloat.unpack Format.binary64 (UnpackedFloat.pack Format.binary64 (.finite s m e hm)) = _ ∨
    ∃ n h, UnpackedFloat.unpack Format.binary64 (UnpackedFloat.pack Format.binary64 (.finite s m e hm)) = _
  unfold UnpackedFloat.pack
  dsimp only
  by_cases hlarge : 2 ^ Format.binary64.exponentBits ≤
      (e + Format.binary64.exponentBias + Format.binary64.mantissaBitsWithoutImplicit).toNat + 1
  · left
    rw [if_pos hlarge]
    exact unpack_packedInfinity s
  · right
    rw [if_neg hlarge, if_pos (by rw [hlog]; rfl)]
    change ¬2 ^ 11 ≤ (e + (1023 : Nat) + (52 : Nat)).toNat + 1 at hlarge
    change ∃ n h, UnpackedFloat.unpack Format.binary64 (packComponents Format.binary64 s
      (BitVec.ofNat 11 (e + (1023 : Nat) + (52 : Nat)).toNat) _) = _
    have hnat : (BitVec.ofNat 11 (e + (1023 : Nat) + (52 : Nat)).toNat).toNat = (e + 1075).toNat := by
      rw [BitVec.toNat_ofNat, Nat.mod_eq_of_lt (by omega)]
      omega
    generalize BitVec.ofNat 11 (e + (1023 : Nat) + (52 : Nat)).toNat = field at hnat ⊢
    have hones : field ≠ -1#11 := by
      rintro rfl
      change 2047 = (e + 1075).toNat at hnat
      omega
    have hzero : field ≠ 0#11 := by
      rintro rfl
      change 0 = (e + 1075).toNat at hnat
      omega
    have hexponent : (field.toNat : Int) - 1075 = e := by omega
    obtain ⟨n, h, hn⟩ := unpack_packComponents s field (BitVec.ofNat 52 m) hones hzero
    rw [hexponent] at hn
    exact ⟨n, h, hn⟩

/-! ## §3 Sums -/

/-- Positive numbers that are finite are added like natural numbers, at the smaller exponent. -/
theorem add_positive {m n : Nat} {e f : Int} (hm : 0 < m) (hn : 0 < n) :
    UnpackedFloat.add .binary64 (.finite .positive m e hm) (.finite .positive n f hn) =
      .round .binary64 .positive (m <<< (e - min e f).toNat + n <<< (f - min e f).toNat) (min e f) := by
  have hpos : 0 < m <<< (e - min e f).toNat := Nat.shiftLeft_pos_iff.2 hm
  change UnpackedFloat.normalize .binary64
    (((m <<< (e - min e f).toNat : Nat) : Int) + ((n <<< (f - min e f).toNat : Nat) : Int)) (min e f) .positive = _
  rw [← Int.natCast_add]
  have hsum : 0 < m <<< (e - min e f).toNat + n <<< (f - min e f).toNat := Nat.add_pos_left hpos _
  generalize m <<< (e - min e f).toNat + n <<< (f - min e f).toNat = sum at hsum ⊢
  have hgt : compare (sum : Int) 0 = .gt := compare_gt_iff_gt.2 (by omega)
  unfold UnpackedFloat.normalize
  rw [hgt, Int.toNat_natCast]

/-- What a degree is that is greater than zero by more than the tolerance: it has at least the exponent of the
tolerance, and all of its bits. -/
def IsLarge (u : UnpackedFloat) : Prop :=
  u = .infinity .positive ∨ ∃ m e h, u = .finite .positive m e h ∧ 2 ^ 52 ≤ m ∧ -82 ≤ e

/-- What a sum of two such degrees is: it has a greater exponent than the tolerance. -/
def IsLarger (u : UnpackedFloat) : Prop :=
  u = .infinity .positive ∨ ∃ m e h, u = .finite .positive m e h ∧ -82 < e

/-- Both numbers have the bits of the format, so that their sum has one bit more, which rounding makes up for by
the exponent. -/
theorem IsLarge.add {u v : UnpackedFloat} (hu : IsLarge u) (hv : IsLarge v) :
    IsLarger (pack (UnpackedFloat.add .binary64 u v)).unpack := by
  have hinf : (pack (.infinity .positive)).unpack = .infinity .positive := unpack_packedInfinity .positive
  obtain rfl | ⟨m, e, hm, rfl, hmlow, he⟩ := hu
  · left
    obtain rfl | ⟨n, f, hn, rfl, hnlow, hf⟩ := hv
    · exact hinf
    · exact hinf
  · obtain rfl | ⟨n, f, hn, rfl, hnlow, hf⟩ := hv
    · exact .inl hinf
    · have hleft : m ≤ m <<< (e - min e f).toNat := by
        rw [Nat.shiftLeft_eq]
        exact Nat.le_mul_of_pos_right _ (Nat.two_pow_pos _)
      have hright : n ≤ n <<< (f - min e f).toNat := by
        rw [Nat.shiftLeft_eq]
        exact Nat.le_mul_of_pos_right _ (Nat.two_pow_pos _)
      have hsum : 2 ^ 53 ≤ m <<< (e - min e f).toNat + n <<< (f - min e f).toNat := by omega
      obtain ⟨r, g, hr, hround, hlow, hhigh, hg, -⟩ := exists_round .positive hsum (e := min e f) (by omega)
      rw [add_positive, hround]
      rcases unpack_pack_cases .positive hr hlow hhigh (e := g) (by omega) with h | ⟨k, hk, h⟩
      · exact .inl h
      · exact .inr ⟨k, g, hk, h, by omega⟩

namespace Float

variable {x y : Float}

/-- A positive number is infinite, or has a mantissa and an exponent. -/
theorem unpack_of_pos (h : 0.0 < x) :
    x.toModel.unpack = .infinity .positive ∨ ∃ m e hm, x.toModel.unpack = .finite .positive m e hm := by
  have hzero : (0.0 : Float).toModel.unpack = .zero .positive := rfl
  rw [lt_iff, hzero] at h
  cases hx : x.toModel.unpack with
  | notANumber =>
    rw [hx] at h
    cases h
  | zero s =>
    rw [hx] at h
    cases h
  | infinity s =>
    rw [hx] at h
    cases s with
    | positive => exact .inl rfl
    | negative => cases h
  | finite s m e hm =>
    rw [hx] at h
    cases s with
    | positive => exact .inr ⟨m, e, hm, rfl⟩
    | negative => cases h

/-- Nothing is taken from a positive number, which is its own magnitude. -/
theorem abs_sub_zero (h : 0.0 < x) : Float.abs (x - 0.0) = x := by
  have hsub : x - 0.0 =
      Float.ofModel (Float.Model.pack (.sub .binary64 x.toModel.unpack (.zero .positive))) := rfl
  have habs : Float.abs x = Float.ofModel (Float.Model.pack (.abs x.toModel.unpack)) := rfl
  have hsame : UnpackedFloat.sub .binary64 x.toModel.unpack (.zero .positive) = x.toModel.unpack ∧
      UnpackedFloat.abs x.toModel.unpack = x.toModel.unpack := by
    obtain hx | ⟨m, e, hm, hx⟩ := unpack_of_pos h
    · rw [hx]
      exact ⟨rfl, rfl⟩
    · rw [hx]
      exact ⟨rfl, rfl⟩
  rw [hsub, hsame.1, ofModel_pack_unpack, habs, hsame.2, ofModel_pack_unpack]

/-- A number is above zero when it is positive and not less than the tolerance. -/
theorem above_zero_iff : above x 0.0 = true ↔ 0.0 < x ∧ ¬x < tolerance := by
  by_cases hpos : 0.0 < x
  · have hne : (x == 0.0) = false := by
      have hzero : (0.0 : Float).toModel.unpack = .zero .positive := rfl
      change (x.toModel.unpack.compare (0.0 : Float).toModel.unpack == some .eq) = false
      rw [compare_swap, lt_iff.1 hpos]
      rfl
    have hnan : isNaN (0.0 : Float) = false := by decide
    have habs : Scalar.abs (x - 0.0) = x := abs_sub_zero hpos
    simp [above, aboveWithin, nearWithin, hne, hnan, habs, hpos]
  · simp [above, aboveWithin, hpos]

theorem isNaN_eq_false_of_above (h : above x 0.0 = true) : isNaN x = false := by
  rw [← Bool.not_eq_true]
  intro hnan
  have hpos := (above_zero_iff.1 h).1
  rw [eq_nan hnan] at hpos
  exact not_lt_nan 0.0 hpos

theorem unpack_tolerance : ∃ h, (tolerance : Float).toModel.unpack = .finite .positive 4835703278458517 (-82) h :=
  ⟨_, rfl⟩

/-- What is above zero has at least the exponent of the tolerance. -/
theorem isLarge_of_above (h : above x 0.0 = true) : IsLarge x.toModel.unpack := by
  obtain ⟨hpos, htolerance⟩ := above_zero_iff.1 h
  obtain hx | ⟨m, e, hm, hx⟩ := unpack_of_pos hpos
  · exact .inl hx
  · obtain ⟨htol, hunpack⟩ := unpack_tolerance
    obtain ⟨-, -, -, hbits⟩ := canonical_of_unpack hx
    -- exponents are compared before mantissas
    have he : -82 ≤ e := by
      by_contra hlt
      have hcompare : compare e (-82) = .lt := compare_lt_iff_lt.2 (by omega)
      apply htolerance
      rw [lt_iff, hx, hunpack]
      change some ((compare e (-82)).then (compare m 4835703278458517)) = some .lt
      rw [hcompare]
      rfl
    exact .inr ⟨m, e, hm, hx, by omega, he⟩

/-- What has a greater exponent than the tolerance is above zero. -/
theorem above_of_isLarger (h : IsLarger x.toModel.unpack) : above x 0.0 = true := by
  have hzero : (0.0 : Float).toModel.unpack = .zero .positive := rfl
  obtain ⟨hm, hunpack⟩ := unpack_tolerance
  rw [above_zero_iff, lt_iff, lt_iff, hzero, hunpack]
  obtain hx | ⟨m, e, hm, hx, he⟩ := h
  · rw [hx]
    exact ⟨rfl, nofun⟩
  · have hcompare : compare e (-82) = .gt := compare_gt_iff_gt.2 he
    rw [hx]
    refine ⟨rfl, ?_⟩
    change ¬some ((compare e (-82)).then (compare m 4835703278458517)) = some .lt
    rw [hcompare]
    nofun

/-- The sum of two degrees that are above zero is above zero, however it is rounded. -/
theorem above_add (hx : above x 0.0 = true) (hy : above y 0.0 = true) : above (x + y) 0.0 = true :=
  above_of_isLarger ((isLarge_of_above hx).add (isLarge_of_above hy))

end Float

/-! ## §4 Totals -/

namespace Activation

variable {ι : Type}

/-- Adding further degrees keeps a sum above zero. -/
theorem above_foldl_add {ps : List (Float × ι)} (h : ∀ p ∈ ps, fires p = true) {acc : Float}
    (hacc : above acc 0.0 = true) : above (ps.foldl (fun acc p => acc + p.1) acc) 0.0 = true := by
  induction ps generalizing acc with
  | nil => exact hacc
  | cons p ps ih =>
    have hp : above p.1 0.0 = true := h p List.mem_cons_self
    exact ih (fun q hq => h q (List.mem_cons_of_mem _ hq)) (Float.above_add hacc hp)

/-- The total of degrees that are above zero is above zero, if there are any. -/
theorem above_sumOfDegrees {ps : List (Float × ι)} (h : ∀ p ∈ ps, fires p = true) (hne : ps ≠ []) :
    above (sumOfDegrees ps) 0.0 = true := by
  cases ps with
  | nil => exact absurd rfl hne
  | cons p ps =>
    have hp : above p.1 0.0 = true := h p List.mem_cons_self
    -- the first degree is added to zero, and is the sum so far
    have hstart : sumOfDegrees (p :: ps) = ps.foldl (fun acc p => acc + p.1) p.1 := by
      unfold sumOfDegrees
      rw [List.foldl_cons, Float.zero_add_of_pos (Float.above_zero_iff.1 hp).1]
    rw [hstart]
    exact above_foldl_add (fun q hq => h q (List.mem_cons_of_mem _ hq)) hp

/-- The degrees above zero, each divided by their total. -/
def quotients {α : Type} [Scalar α] (ds : List (α × ι)) : List (α × ι) :=
  (ds.filter fires).map fun p => (p.1 / sumOfDegrees (ds.filter fires), p.2)

/-- A proportional method never finds that its total is too small, unless no degree is above zero. -/
theorem select_proportional_of_float (ds : List (Float × ι)) :
    (proportional : Activation Float).select ds = quotients ds := by
  rw [select_proportional]
  split
  · rfl
  next h =>
    by_cases hne : ds.filter fires = []
    · unfold quotients
      rw [hne]
      rfl
    · exact absurd (above_sumOfDegrees (fun p hp => (List.mem_filter.1 hp).2) hne) h

end Activation

end FuzzyInference
