import FuzzyInference.Proofs.Faults.Formulas
import FuzzyInference.Proofs.Ranking

/-!
# Signs of results that are too large

A formula settles a result that is too large by the positive infinity, whichever operation it comes from and
whatever the sign of the result is, and it rounds the negative infinity to the positive one. Everywhere else a
negative result does not become positive. Rounding to the nearest whole number, which first takes a half from its
argument, is no exception: that difference is rounded as well, but never so far as to be infinite, since it is
small or the half is lost.

The plan of this module:

* rounding a number that is followed by less than a half;
* the difference of a negative number and a half;
* whole numbers at negative arguments;
* the operations that lose a sign.

## Main statements

* `Float.unpack_sub_half`: a half taken from a negative number
* `Formula.rounding_eq_inf_iff`: rounding to whole numbers
* `Formula.sign_lost_iff`: negative results that become the positive infinity
-/

namespace FuzzyInference

open Float.Model UnpackedFloat
open Scalar Decimal

/-! ## §1 Rounding down -/

theorem roundBit_shiftRight_succ (em : ExtendedMantissa) (n : ℕ) :
    (em >>> (n + 1)).roundBit = (em.mantissa / 2 ^ n % 2 != 0) := by
  rw [← mantissa_shiftRight]
  rfl

/-- What is less than a half is cut. -/
theorem roundedMantissa_of_roundBit {em : ExtendedMantissa} (h : em.roundBit = false) :
    em.roundedMantissa = em.mantissa := by
  obtain ⟨m, roundBit, stickyBit⟩ := em
  cases h
  cases stickyBit <;> rfl

theorem log2_mul_two_pow_add {q r k : ℕ} (hlow : 2 ^ 52 ≤ q) (hhigh : q < 2 ^ 53) (hr : r < 2 ^ k) :
    (q * 2 ^ k + r).log2 = 52 + k := by
  rw [Nat.log2_eq_iff (by positivity)]
  constructor
  · calc 2 ^ (52 + k) = 2 ^ 52 * 2 ^ k := Nat.pow_add ..
      _ ≤ q * 2 ^ k := Nat.mul_le_mul_right _ hlow
      _ ≤ q * 2 ^ k + r := Nat.le_add_right ..
  · calc q * 2 ^ k + r < q * 2 ^ k + 2 ^ k := Nat.add_lt_add_left hr _
      _ = (q + 1) * 2 ^ k := (Nat.succ_mul ..).symm
      _ ≤ 2 ^ 53 * 2 ^ k := Nat.mul_le_mul_right _ hhigh
      _ = 2 ^ (52 + k + 1) := by
        rw [← Nat.pow_add]
        congr 1
        omega

/-- A number whose bits fill the format, followed by less than a half, is rounded to these bits. -/
theorem round_add_of_lt (s : Sign) {q r k : ℕ} {e : ℤ} (hlow : 2 ^ 52 ≤ q) (hhigh : q < 2 ^ 53) (hr : r < 2 ^ k)
    (he : -1074 ≤ e) (hq : 0 < q) :
    UnpackedFloat.round Format.binary64 s (q * 2 ^ (k + 1) + r) e = .finite s q (e + (k + 1 : ℕ)) hq := by
  have hr' : r < 2 ^ (k + 1) := hr.trans (Nat.pow_lt_pow_right (by decide) k.lt_succ_self)
  have hlog := log2_mul_two_pow_add hlow hhigh hr'
  have hdiv : (q * 2 ^ (k + 1) + r) / 2 ^ (k + 1) = q := by
    rw [Nat.mul_comm, Nat.mul_add_div (Nat.two_pow_pos _), Nat.div_eq_of_lt hr', Nat.add_zero]
  have hbit : (q * 2 ^ (k + 1) + r) / 2 ^ k % 2 = 0 := by
    rw [Nat.pow_succ, Nat.mul_comm (2 ^ k) 2, ← Nat.mul_assoc, Nat.mul_comm (q * 2),
      Nat.mul_add_div (Nat.two_pow_pos _), Nat.div_eq_of_lt hr]
    omega
  generalize q * 2 ^ (k + 1) + r = m at hdiv hbit hlog
  have hrounded : (ExtendedMantissa.ofMantissaAndAccuracy m .exact >>> (k + 1)).roundedMantissa = q := by
    have hround : (ExtendedMantissa.ofMantissaAndAccuracy m .exact >>> (k + 1)).roundBit = false := by
      rw [roundBit_shiftRight_succ, mantissa_ofMantissaAndAccuracy, hbit]
      rfl
    rw [roundedMantissa_of_roundBit hround, mantissa_shiftRight, mantissa_ofMantissaAndAccuracy, hdiv]
  -- nothing is carried, and the second shift is none
  have hqlog : q.log2 = 52 + 0 := (Nat.log2_eq_iff hq.ne').2 ⟨hlow, hhigh⟩
  have hsecond := shiftToTargetExponent_of_log2 hqlog (e := e + (k + 1 : ℕ)) (by omega) .exact
  unfold UnpackedFloat.round
  dsimp only
  rw [decreaseExponent_of_le (by omega)]
  unfold roundWithAccuracy
  rw [shiftToTargetExponent_of_log2 hlog he]
  dsimp only
  rw [hrounded, hsecond, Int.natCast_zero, Int.add_zero]
  exact dif_neg hq.ne'

/-! ## §2 Differences -/

/-- A positive number is taken from a negative one by adding them, at the smaller exponent. -/
theorem sub_negative {m n : ℕ} {e f : ℤ} (hm : 0 < m) (hn : 0 < n) :
    UnpackedFloat.sub .binary64 (.finite .negative m e hm) (.finite .positive n f hn) =
      .round .binary64 .negative (m <<< (e - min e f).toNat + n <<< (f - min e f).toNat) (min e f) := by
  have hpos : 0 < m <<< (e - min e f).toNat := Nat.shiftLeft_pos_iff.2 hm
  change UnpackedFloat.normalize .binary64
    (-((m <<< (e - min e f).toNat : ℕ) : ℤ) - ((n <<< (f - min e f).toNat : ℕ) : ℤ)) (min e f) .positive = _
  have hsum : -((m <<< (e - min e f).toNat : ℕ) : ℤ) - ((n <<< (f - min e f).toNat : ℕ) : ℤ) =
      -((m <<< (e - min e f).toNat + n <<< (f - min e f).toNat : ℕ) : ℤ) := by omega
  have hadd : 0 < m <<< (e - min e f).toNat + n <<< (f - min e f).toNat := Nat.add_pos_left hpos _
  rw [hsum]
  generalize m <<< (e - min e f).toNat + n <<< (f - min e f).toNat = sum at hadd ⊢
  have hlt : compare (-(sum : ℤ)) 0 = .lt := compare_lt_iff_lt.2 (by omega)
  unfold UnpackedFloat.normalize
  rw [hlt, Int.neg_neg, Int.toNat_natCast]

/-- The significands of a number that is not large and of a half, at the smaller exponent: together they have more
bits than the format, and stay small. -/
theorem add_half_bounds {m : ℕ} {e : ℤ} (hhigh : m < 2 ^ 53) (hlow : 2 ^ 52 ≤ m ∨ e = -1074) (he : e ≤ 0) :
    2 ^ 53 ≤ m <<< (e - min e (-53)).toNat + 2 ^ 52 <<< ((-53 : ℤ) - min e (-53)).toNat ∧
      ((m <<< (e - min e (-53)).toNat + 2 ^ 52 <<< ((-53 : ℤ) - min e (-53)).toNat).log2 : ℤ) +
        min e (-53) ≤ 54 := by
  rw [Nat.shiftLeft_eq, Nat.shiftLeft_eq]
  have hmany : 2 ^ 53 ≤ m * 2 ^ (e - min e (-53)).toNat + 2 ^ 52 * 2 ^ ((-53 : ℤ) - min e (-53)).toNat := by
    rcases hlow with hlow | rfl
    · have hfirst : m ≤ m * 2 ^ (e - min e (-53)).toNat := Nat.le_mul_of_pos_right _ (Nat.two_pow_pos _)
      have hsecond : 2 ^ 52 ≤ 2 ^ 52 * 2 ^ ((-53 : ℤ) - min e (-53)).toNat :=
        Nat.le_mul_of_pos_right _ (Nat.two_pow_pos _)
      omega
    · have hmany : 2 ^ 52 * 2 ^ 1 ≤ 2 ^ 52 * 2 ^ ((-53 : ℤ) - min (-1074) (-53)).toNat :=
        Nat.mul_le_mul_left _ (Nat.pow_le_pow_right (by decide) (by decide))
      exact Nat.le_add_left_of_le hmany
  have hpow : ∀ {k l : ℕ}, k ≤ l → 2 ^ k ≤ 2 ^ l := Nat.pow_le_pow_right (by decide)
  have hfirst : m * 2 ^ (e - min e (-53)).toNat ≤ 2 ^ 53 * 2 ^ (-min e (-53)).toNat :=
    Nat.mul_le_mul hhigh.le (hpow (by omega))
  have hsecond : 2 ^ 52 * 2 ^ ((-53 : ℤ) - min e (-53)).toNat ≤ 2 ^ 52 * 2 ^ (-min e (-53)).toNat :=
    Nat.mul_le_mul_left _ (hpow (by omega))
  have hlt : m * 2 ^ (e - min e (-53)).toNat + 2 ^ 52 * 2 ^ ((-53 : ℤ) - min e (-53)).toNat <
      2 ^ (54 + (-min e (-53)).toNat) := by
    have hunit := Nat.two_pow_pos (-min e (-53)).toNat
    rw [Nat.pow_add]
    omega
  have hlog := (Nat.log2_lt (by omega)).2 hlt
  exact ⟨hmany, by omega⟩

namespace Float

variable {x : Float} {m : ℕ} {e : ℤ} {hm : 0 < m}

/-- A half is too little to be taken from a number that has only even neighbours. -/
theorem sub_half_of_large (h : x.toModel.unpack = .finite .negative m e hm) (he : 1 ≤ e) : x - 0.5 = x := by
  obtain ⟨hhigh, -, -, hlow⟩ := canonical_of_unpack h
  have hlow : 2 ^ 52 ≤ m := hlow.resolve_right (by omega)
  have hhalf : (0.5 : Float).toModel.unpack = .finite .positive (2 ^ 52) (-53) (Nat.two_pow_pos 52) := rfl
  have hsub : x - 0.5 = Float.ofModel (Float.Model.pack
      (UnpackedFloat.sub .binary64 x.toModel.unpack (0.5 : Float).toModel.unpack)) := rfl
  obtain ⟨k, hk⟩ := Int.eq_ofNat_of_zero_le (show 0 ≤ e + 52 by omega)
  have hmin : min e (-53) = -53 := by omega
  have hround := round_add_of_lt .negative hlow hhigh (r := 2 ^ 52) (k := k)
    (Nat.pow_lt_pow_right (by decide) (by omega)) (e := -53) (by omega) hm
  rw [hsub, hhalf, h, sub_negative, hmin, show (e - -53).toNat = k + 1 by omega, Nat.shiftLeft_eq,
    show ((-53 : ℤ) - -53).toNat = 0 by omega, Nat.shiftLeft_zero, hround]
  have hexponent : (-53 : ℤ) + (k + 1 : ℕ) = e := by omega
  have hsame : UnpackedFloat.finite .negative m (-53 + (k + 1 : ℕ)) hm = x.toModel.unpack := by
    rw [h, UnpackedFloat.finite.injEq]
    exact ⟨rfl, rfl, hexponent⟩
  rw [hsame, ofModel_pack_unpack]

/-- A half taken from a negative number that is not large leaves a negative number that is finite. -/
theorem unpack_sub_half_of_small (h : x.toModel.unpack = .finite .negative m e hm) (he : e ≤ 0) :
    ∃ n f hn, (x - 0.5).toModel.unpack = .finite .negative n f hn := by
  obtain ⟨hhigh, hleast, -, hlow⟩ := canonical_of_unpack h
  obtain ⟨hmany, hlog⟩ := add_half_bounds hhigh hlow he
  have hhalf : (0.5 : Float).toModel.unpack = .finite .positive (2 ^ 52) (-53) (Nat.two_pow_pos 52) := rfl
  have hsub : (x - 0.5).toModel = Float.Model.pack
      (UnpackedFloat.sub .binary64 x.toModel.unpack (0.5 : Float).toModel.unpack) := rfl
  obtain ⟨n, f, hn, hround, hlow', hhigh', hmin, hmax⟩ :=
    exists_round .negative hmany (e := min e (-53)) (by omega)
  rw [hsub, hhalf, h, sub_negative, hround]
  rcases unpack_pack_cases .negative hn hlow' hhigh' (e := f) (by omega) with hinf | ⟨k, hk, hfinite⟩
  · have hfinite := @isFinite_unpack_pack .negative n f hn (by omega)
    rw [hinf] at hfinite
    cases hfinite
  · exact ⟨k, f, hk, hfinite⟩

/-- A half taken from a negative number leaves a negative one, which is finite like the first. -/
theorem unpack_sub_half (h : x.toModel.unpack = .finite .negative m e hm) :
    ∃ n f hn, (x - 0.5).toModel.unpack = .finite .negative n f hn := by
  by_cases he : 1 ≤ e
  · rw [sub_half_of_large h he]
    exact ⟨m, e, hm, h⟩
  · exact unpack_sub_half_of_small h (by omega)

/-- The negative of a number is negative when the number is positive. -/
theorem neg_lt_zero_iff (x : Float) : -x < 0.0 ↔ 0.0 < x := by
  have hzero : (0.0 : Float).toModel.unpack = .zero .positive := rfl
  rw [lt_iff, lt_iff, unpack_neg, hzero]
  cases x.toModel.unpack with
  | notANumber => exact ⟨nofun, nofun⟩
  | zero s => cases s <;> exact ⟨nofun, nofun⟩
  | infinity s =>
    cases s with
    | positive => exact ⟨fun _ => rfl, fun _ => rfl⟩
    | negative => exact ⟨nofun, nofun⟩
  | finite s m e hm =>
    cases s with
    | positive => exact ⟨fun _ => rfl, fun _ => rfl⟩
    | negative => exact ⟨nofun, nofun⟩

theorem isFinite_neg (x : Float) : isFinite (-x) = isFinite x := by
  rw [isFinite_eq, isFinite_eq, unpack_neg]
  cases x.toModel.unpack <;> rfl

/-- A negative number is infinite, or has a mantissa and an exponent. -/
theorem unpack_of_neg (h : x < 0.0) : x = -inf ∨ ∃ m e hm, x.toModel.unpack = .finite .negative m e hm := by
  have hzero : (0.0 : Float).toModel.unpack = .zero .positive := rfl
  rw [lt_iff, hzero] at h
  cases hx : x.toModel.unpack with
  | notANumber =>
    rw [hx] at h
    cases h
  | zero s =>
    rw [hx] at h
    cases h
  | infinity s =>
    rw [hx] at h
    cases s with
    | positive => cases h
    | negative => exact .inl (eq_of_unpack hx)
  | finite s m e hm =>
    rw [hx] at h
    cases s with
    | positive => cases h
    | negative => exact .inr ⟨m, e, hm, rfl⟩

theorem of_neg (h : x < 0.0) : isNaN x = false ∧ x ≠ inf ∧ (isInf x = true → x = -inf) := by
  rcases unpack_of_neg h with rfl | ⟨m, e, hm, hx⟩
  · decide
  · refine ⟨?_, ?_, ?_⟩
    · rw [isNaN_eq, hx]
      rfl
    · rintro rfl
      cases hx
    · rw [isInf_eq, hx]
      nofun

end Float

/-! ## §3 Whole numbers -/

namespace Decimal

/-- Zero and negative whole numbers are not rounded to the positive infinity. -/
theorem floatOfInt_ne_inf {n : ℤ} (h : n ≤ 0) : floatOfInt n ≠ inf := by
  rcases h.eq_or_lt with rfl | hneg
  · decide
  · have hbits (magnitude : ℕ) : floatOfBits true magnitude ≠ inf := by
      intro heq
      have htoBits := congrArg (fun x : Float => x.toBits.toNat) heq
      have hinf : (inf : Float).toBits.toNat = infinityBits := by decide
      have hsign : twoTo 63 ≤ (floatOfBits true magnitude).toBits.toNat := by
        rw [toNat_toBits_floatOfBits]
        exact Nat.le_add_right _ _
      have hlt : infinityBits < twoTo 63 := by decide
      have hnat : (floatOfBits true magnitude).toBits.toNat = (inf : Float).toBits.toNat := htoBits
      omega
    unfold floatOfInt nearestFloat
    rw [decide_eq_true hneg]
    dsimp only
    split
    · exact hbits _
    · exact hbits _

variable {x : Float}

/-- The whole number below a number that is not positive is not positive either. -/
theorem floor?_of_not_pos (hfinite : isFinite x = true) (h : ¬0.0 < x) : ∃ n : ℤ, floor? x = some n ∧ n ≤ 0 := by
  obtain ⟨negative, m, e, hx⟩ := exists_of_isFinite hfinite
  rw [pos_iff hx] at h
  unfold floor?
  rw [hx]
  cases negative with
  | true => exact ⟨_, rfl, Int.neg_nonpos_of_nonneg (Int.natCast_nonneg _)⟩
  | false =>
    have hm : m = 0 := by
      by_contra hne
      exact h ⟨rfl, Nat.pos_of_ne_zero hne⟩
    subst hm
    exact ⟨_, rfl, by simp⟩

/-- The whole number below a number that is not negative is not negative either. -/
theorem floor?_of_not_neg (hfinite : isFinite x = true) (h : ¬x < 0.0) : ∃ n : ℤ, floor? x = some n ∧ 0 ≤ n := by
  obtain ⟨negative, m, e, hx⟩ := exists_of_isFinite hfinite
  rw [neg_iff hx] at h
  unfold floor?
  rw [hx]
  cases negative with
  | false => exact ⟨_, rfl, Int.natCast_nonneg _⟩
  | true =>
    have hm : m = 0 := by
      by_contra hne
      exact h ⟨rfl, Nat.pos_of_ne_zero hne⟩
    subst hm
    -- a negative zero: what is added for rounding up does not reach the next whole number
    have hden : 0 < (fractionOf 0 e).2 := fractionOf_den_pos 0 e
    have hnum : (fractionOf 0 e).1 = 0 := Nat.zero_mul _
    refine ⟨_, rfl, ?_⟩
    change 0 ≤ -((((fractionOf 0 e).1 + (fractionOf 0 e).2 - 1) / (fractionOf 0 e).2 : ℕ) : ℤ)
    rw [hnum, Nat.zero_add, Nat.div_eq_of_lt (by omega)]
    decide

end Decimal

namespace Formula

variable {x : Float}

theorem whole_of_isFinite {f : Float → Float} (h : isFinite x = true) : whole f x = f x := by
  unfold whole
  rw [Scalar.isFinite, Bool.not_eq_true', Bool.or_eq_false_iff] at h
  rw [h.1, h.2]
  rfl

theorem floor_ne_inf (hfinite : isFinite x = true) (h : ¬0.0 < x) : whole Scalar.floor x ≠ inf := by
  obtain ⟨n, hn, hle⟩ := floor?_of_not_pos hfinite h
  have hfloor : Scalar.floor x = floatOfInt n := by
    change floatFloor x = _
    rw [floatFloor, hn]
  rw [whole_of_isFinite hfinite, hfloor]
  exact floatOfInt_ne_inf hle

theorem ceil_ne_inf (hfinite : isFinite x = true) (h : ¬0.0 < x) : whole Scalar.ceil x ≠ inf := by
  rw [← Float.neg_lt_zero_iff] at h
  obtain ⟨n, hn, hle⟩ := floor?_of_not_neg (by rwa [Float.isFinite_neg]) h
  have hceil : Scalar.ceil x = floatOfInt (-n) := by
    change floatCeil x = _
    rw [floatCeil, hn]
  rw [whole_of_isFinite hfinite, hceil]
  exact floatOfInt_ne_inf (by omega)

theorem round_ne_inf (hfinite : isFinite x = true) (h : x < 0.0) : Formula.round x ≠ inf := by
  obtain rfl | ⟨m, e, hm, hx⟩ := Float.unpack_of_neg h
  · exact absurd hfinite (by decide)
  · have hzero : (0.0 : Float).toModel.unpack = .zero .positive := rfl
    obtain ⟨n, f, hn, hhalf⟩ := Float.unpack_sub_half hx
    have hround : Formula.round x = whole Scalar.ceil (x - 0.5) := if_neg fun hle => Float.not_lt_of_le hle h
    have hfinite' : Scalar.isFinite (x - 0.5) = true := by
      rw [Float.isFinite_eq, hhalf]
      rfl
    have hpos : ¬0.0 < x - 0.5 := by
      rw [Float.lt_iff, hzero, hhalf]
      nofun
    rw [hround]
    exact ceil_ne_inf hfinite' hpos

/-! ## §4 Signs -/

/-- A negative number is rounded to the positive infinity only if it is the negative one. -/
theorem rounding_eq_inf_iff {f : UnaryFunction} (hf : f = .floor ∨ f = .ceil ∨ f = .round) (x : Float) :
    f.eval x = inf ∧ x < 0.0 ↔ x = -inf := by
  constructor
  · rintro ⟨hinf, hneg⟩
    rcases Float.unpack_of_neg hneg with hx | ⟨m, e, hm, hx⟩
    · exact hx
    · have hzero : (0.0 : Float).toModel.unpack = .zero .positive := rfl
      have hfinite : Scalar.isFinite x = true := by
        rw [Float.isFinite_eq, hx]
        rfl
      have hpos : ¬0.0 < x := by
        rw [Float.lt_iff, hzero, hx]
        nofun
      obtain rfl | rfl | rfl := hf
      · exact absurd hinf (floor_ne_inf hfinite hpos)
      · exact absurd hinf (ceil_ne_inf hfinite hpos)
      · exact absurd hinf (round_ne_inf hfinite hneg)
  · rintro rfl
    refine ⟨?_, by decide⟩
    obtain rfl | rfl | rfl := hf <;> decide

/-- An operation is settled by the positive infinity when that is its value, or its value is too large. -/
theorem settle_eq_inf_iff {y : Except Fault Float} : settle y = inf ↔ y = .ok inf ∨ y = .error .overflow := by
  rcases y with fault | x
  · cases fault
    case overflow => exact ⟨fun _ => .inr rfl, fun _ => rfl⟩
    all_goals
      have hnan : (nan : Float) ≠ inf := by decide
      exact ⟨fun h => absurd h hnan, nofun⟩
  · exact ⟨fun h => .inl (congrArg Except.ok h), fun h => by
      rcases h with h | h
      · exact Except.ok.inj h
      · cases h⟩

theorem eq_of_apply {g : Elementary} {y : Float} (h : Scalar.apply g x = .ok y) : elementary g x = y := by
  unfold Scalar.apply at h
  dsimp only at h
  split at h
  · cases h
  · split at h
    · cases h
    · exact Except.ok.inj h

theorem eq_of_power {a b y : Float} (h : Scalar.power a b = .ok y) : pow a b = y := by
  unfold Scalar.power at h
  dsimp only at h
  split at h
  · split at h
    · cases h
    · split at h
      · cases h
      · exact Except.ok.inj h
  · exact Except.ok.inj h

/-- A negative value of a real function becomes the positive infinity where it is too large. -/
theorem elementary_eq_inf_iff (g : Elementary) (x : Float) :
    UnaryFunction.eval (.elementary g) x = inf ∧ elementary g x < 0.0 ↔
      g.grows = true ∧ Scalar.isFinite x = true ∧ elementary g x = -inf := by
  change settle (Scalar.apply g x) = inf ∧ _ ↔ _
  rw [settle_eq_inf_iff, apply_eq_error_iff, ApplyFaults]
  constructor
  · rintro ⟨hsettled, hneg⟩
    obtain ⟨hnan, hne, hinf⟩ := Float.of_neg hneg
    rcases hsettled with hvalue | ⟨-, hdomain⟩ | ⟨-, hlarge, hoverflow⟩
    · exact absurd (eq_of_apply hvalue) hne
    · cases hdomain
    · rw [Bool.and_eq_true] at hlarge
      cases hgrows : g.grows with
      | true => exact ⟨rfl, hlarge.2, hinf hlarge.1⟩
      | false =>
        rw [hgrows] at hoverflow
        cases hoverflow
  · rintro ⟨hgrows, hfinite, hinf⟩
    have hnan : isNaN (-inf : Float) = false := by decide
    rw [hinf, hgrows, hfinite, hnan]
    exact ⟨.inr (.inr ⟨rfl, by decide, rfl⟩), by decide⟩

/-- So does a negative power, where it is too large. -/
theorem power_eq_inf_iff (a b : Float) :
    BinaryFunction.power.eval a b = inf ∧ pow a b < 0.0 ↔
      Scalar.isFinite a = true ∧ Scalar.isFinite b = true ∧ (a == 0.0) = false ∧ pow a b = -inf := by
  change settle (Scalar.power a b) = inf ∧ _ ↔ _
  rw [settle_eq_inf_iff, power_eq_error_iff, PowerFaults, Bool.and_eq_true]
  constructor
  · rintro ⟨hsettled, hneg⟩
    obtain ⟨hnan, hne, hinf⟩ := Float.of_neg hneg
    rcases hsettled with hvalue | ⟨hfinite, ⟨-, hdomain⟩ | ⟨-, hlarge, hoverflow⟩⟩
    · exact absurd (eq_of_power hvalue) hne
    · cases hdomain
    · cases hzero : a == 0.0 with
      | true =>
        rw [hzero] at hoverflow
        cases hoverflow
      | false => exact ⟨hfinite.1, hfinite.2, rfl, hinf hlarge⟩
  · rintro ⟨ha, hb, hzero, hinf⟩
    rw [hinf, hzero]
    exact ⟨.inr ⟨⟨ha, hb⟩, .inr ⟨by decide, by decide, rfl⟩⟩, by decide⟩

/-- A negative result becomes the positive infinity where it is beyond every finite number, and nowhere else: a
power of finite numbers, as an operator or as a function, and a real function of a finite number that grow too
fast; and the negative infinity, when it is rounded to a whole number. -/
theorem sign_lost_iff (a b x : Float) (g : Elementary) :
    ((BinaryOperator.power.eval a b : Except Fault Float) = .ok (BinaryFunction.power.eval a b) ∧
      (BinaryFunction.power.eval a b = inf ∧ pow a b < 0.0 ↔
        Scalar.isFinite a = true ∧ Scalar.isFinite b = true ∧ (a == 0.0) = false ∧ pow a b = -inf)) ∧
    (UnaryFunction.eval (.elementary g) x = inf ∧ elementary g x < 0.0 ↔
      g.grows = true ∧ Scalar.isFinite x = true ∧ elementary g x = -inf) ∧
    (UnaryFunction.floor.eval x = inf ∧ x < 0.0 ↔ x = -inf) ∧
    (UnaryFunction.ceil.eval x = inf ∧ x < 0.0 ↔ x = -inf) ∧
    (UnaryFunction.round.eval x = inf ∧ x < 0.0 ↔ x = -inf) := by
  refine ⟨⟨rfl, power_eq_inf_iff a b⟩, elementary_eq_inf_iff g x, ?_, ?_, ?_⟩
  · exact rounding_eq_inf_iff (.inl rfl) x
  · exact rounding_eq_inf_iff (.inr (.inl rfl)) x
  · exact rounding_eq_inf_iff (.inr (.inr rfl)) x

end Formula

end FuzzyInference
