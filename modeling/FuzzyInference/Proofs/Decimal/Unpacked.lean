import FuzzyInference.Proofs.Decimal.Nearest

/-!
# Numbers taken apart and unpacked

A floating-point number is looked at in two ways: texts and whole numbers take its bits apart in natural numbers,
and the laws of its arithmetic are those of its unpacked form. Both ways see the same sign, significand and
exponent, so that what is computed from the parts can be compared, and the laws of comparisons hold of the parts.

The plan of this module:

* the fields of packed bits as quotients and remainders;
* the unpacked form of the parts;
* what comparisons tell about the parts.

## Main statements

* `Decimal.unpack_eq_unpacked`: both ways agree
* `Decimal.isNaN_iff`, `Decimal.isInf_iff`, `Decimal.beq_zero_iff`, `Decimal.pos_iff`, `Decimal.neg_iff`
-/

namespace FuzzyInference.Decimal

open Float.Model UnpackedFloat

/-! ## §1 Fields -/

/-- The sign of a number that is taken apart. -/
def signOf (negative : Bool) : Sign := if negative then .negative else .positive

theorem toNat_unpackMantissa (b : BitVec 64) :
    (@unpackMantissa Format.binary64 b).toNat = b.toNat % 2 ^ 52 := by
  have h : @unpackMantissa Format.binary64 b = b.extractLsb 51 0 := rfl
  rw [h, BitVec.extractLsb_toNat, Nat.shiftRight_zero]

/-- The sign is the uppermost bit. -/
theorem ofBitVec_unpackSign (b : BitVec 64) :
    Sign.ofBitVec (@unpackSign Format.binary64 b) = signOf (decide (2 ^ 63 ≤ b.toNat)) := by
  have h : @unpackSign Format.binary64 b = b.extractLsb 63 63 := rfl
  have hlt := b.isLt
  have hnat : (b.extractLsb 63 63).toNat = b.toNat / 2 ^ 63 := by
    rw [BitVec.extractLsb_toNat, Nat.shiftRight_eq_div_pow]
    omega
  have hzero : b.extractLsb 63 63 = 0#1 ↔ ¬2 ^ 63 ≤ b.toNat := by
    rw [← BitVec.toNat_inj, hnat, BitVec.toNat_ofNat]
    omega
  rw [h]
  unfold Sign.ofBitVec signOf
  by_cases hsign : 2 ^ 63 ≤ b.toNat
  · rw [if_neg (fun hz => hzero.1 hz hsign), decide_eq_true hsign, if_pos rfl]
  · rw [if_pos (hzero.2 hsign), decide_eq_false hsign, if_neg Bool.false_ne_true]

/-! ## §2 Parts -/

/-- The parts as an unpacked number, where zero is a case of its own. -/
def Binary.unpacked : Binary → UnpackedFloat
  | .nan => .notANumber
  | .infinite negative => .infinity (signOf negative)
  | .finite negative m e =>
    if h : 0 < m then .finite (signOf negative) m e h else .zero (signOf negative)

theorem Binary.unpacked_of_pos (negative : Bool) {m : ℕ} {e : ℤ} (h : 0 < m) :
    (Binary.finite negative m e).unpacked = .finite (signOf negative) m e h := dif_pos h

/-- Taking a number apart and unpacking it come to the same. -/
theorem unpack_eq_unpacked (x : Float) : x.toModel.unpack = (Binary.ofFloat x).unpacked := by
  have hexponent := toNat_unpackExponent x.toModel.toBits.toBitVec
  have hmantissa := toNat_unpackMantissa x.toModel.toBits.toBitVec
  have hsign := ofBitVec_unpackSign x.toModel.toBits.toBitVec
  have hones : @unpackExponent Format.binary64 x.toModel.toBits.toBitVec = -1#_ ↔
      x.toModel.toBits.toBitVec.toNat / 2 ^ 52 % 2 ^ 11 = 2047 := by
    rw [← hexponent, ← BitVec.toNat_inj]
    rfl
  have hzero : @unpackExponent Format.binary64 x.toModel.toBits.toBitVec = 0#_ ↔
      x.toModel.toBits.toBitVec.toNat / 2 ^ 52 % 2 ^ 11 = 0 := by
    rw [← hexponent, ← BitVec.toNat_inj]
    rfl
  have hfraction : @unpackMantissa Format.binary64 x.toModel.toBits.toBitVec = 0#_ ↔
      x.toModel.toBits.toBitVec.toNat % 2 ^ 52 = 0 := by
    rw [← hmantissa, ← BitVec.toNat_inj]
    rfl
  have hbias : Format.binary64.exponentBias = 1023 := rfl
  have hbits : x.toBits.toNat = x.toModel.toBits.toBitVec.toNat := rfl
  have h11 : twoTo 11 = 2 ^ 11 := rfl
  have h52 : twoTo 52 = 2 ^ 52 := rfl
  have h63 : twoTo 63 = 2 ^ 63 := rfl
  unfold Binary.ofFloat Float.Model.unpack UnpackedFloat.unpack
  dsimp only
  rw [hbias, hsign, hbits, h11, h52, h63]
  by_cases h : x.toModel.toBits.toBitVec.toNat / 2 ^ 52 % 2 ^ 11 = 2047
  · rw [if_pos (hones.2 h), if_pos h]
    by_cases hf : x.toModel.toBits.toBitVec.toNat % 2 ^ 52 = 0
    · rw [if_pos (hfraction.2 hf), if_pos hf]
      rfl
    · rw [if_neg (mt hfraction.1 hf), if_neg hf]
      rfl
  · rw [if_neg (mt hones.1 h), if_neg h]
    by_cases hz : x.toModel.toBits.toBitVec.toNat / 2 ^ 52 % 2 ^ 11 = 0
    · rw [if_pos (hzero.2 hz), if_pos hz]
      by_cases hf : x.toModel.toBits.toBitVec.toNat % 2 ^ 52 = 0
      · rw [dif_pos (hfraction.2 hf), hf]
        rfl
      · -- subnormal numbers
        rw [dif_neg (mt hfraction.1 hf), Binary.unpacked_of_pos _ (Nat.pos_of_ne_zero hf),
          UnpackedFloat.finite.injEq, hexponent, hz]
        exact ⟨rfl, hmantissa, rfl⟩
    · -- normal numbers, which have an implicit bit
      have hpos : 0 < 2 ^ 52 + x.toModel.toBits.toBitVec.toNat % 2 ^ 52 :=
        Nat.add_pos_left (Nat.two_pow_pos 52) _
      rw [if_neg (mt hzero.1 hz), if_neg hz, Binary.unpacked_of_pos _ hpos, UnpackedFloat.finite.injEq,
        hexponent, BitVec.toNat_append, ← Nat.shiftLeft_add_eq_or_of_lt (BitVec.isLt _), hmantissa]
      exact ⟨rfl, rfl, rfl⟩

/-! ## §3 Comparisons -/

section Comparisons

variable {x : Float}

theorem isNaN_iff : Scalar.isNaN x = true ↔ Binary.ofFloat x = .nan := by
  rw [Float.isNaN_eq, unpack_eq_unpacked]
  cases Binary.ofFloat x with
  | nan => exact ⟨fun _ => rfl, fun _ => rfl⟩
  | infinite negative => exact ⟨nofun, nofun⟩
  | finite negative m e => cases m <;> exact ⟨nofun, nofun⟩

theorem isInf_iff : Scalar.isInf x = true ↔ ∃ negative, Binary.ofFloat x = .infinite negative := by
  rw [Float.isInf_eq, unpack_eq_unpacked]
  cases Binary.ofFloat x with
  | nan => exact ⟨nofun, nofun⟩
  | infinite negative => exact ⟨fun _ => ⟨negative, rfl⟩, fun _ => rfl⟩
  | finite negative m e => cases m <;> exact ⟨nofun, nofun⟩

/-- Only zeros equal zero. -/
theorem beq_zero_iff : (x == 0.0) = true ↔ ∃ negative e, Binary.ofFloat x = .finite negative 0 e := by
  change (x.toModel.unpack.compare (.zero .positive) == some .eq) = true ↔ _
  rw [unpack_eq_unpacked]
  cases Binary.ofFloat x with
  | nan => exact ⟨nofun, nofun⟩
  | infinite negative => cases negative <;> exact ⟨nofun, nofun⟩
  | finite negative m e =>
    cases m with
    | zero => exact ⟨fun _ => ⟨negative, e, rfl⟩, fun _ => rfl⟩
    | succ m => cases negative <;> exact ⟨nofun, nofun⟩

variable {negative : Bool} {m : ℕ} {e : ℤ}

theorem pos_iff (h : Binary.ofFloat x = .finite negative m e) : 0.0 < x ↔ negative = false ∧ 0 < m := by
  have hzero : (0.0 : Float).toModel.unpack = .zero .positive := rfl
  rw [Float.lt_iff, hzero, unpack_eq_unpacked, h]
  cases m with
  | zero => exact ⟨nofun, fun hm => absurd hm.2 (lt_irrefl 0)⟩
  | succ m =>
    cases negative with
    | false => exact ⟨fun _ => ⟨rfl, m.succ_pos⟩, fun _ => rfl⟩
    | true => exact ⟨nofun, nofun⟩

theorem neg_iff (h : Binary.ofFloat x = .finite negative m e) : x < 0.0 ↔ negative = true ∧ 0 < m := by
  have hzero : (0.0 : Float).toModel.unpack = .zero .positive := rfl
  rw [Float.lt_iff, hzero, unpack_eq_unpacked, h]
  cases m with
  | zero => exact ⟨nofun, fun hm => absurd hm.2 (lt_irrefl 0)⟩
  | succ m =>
    cases negative with
    | false => exact ⟨nofun, nofun⟩
    | true => exact ⟨fun _ => ⟨rfl, m.succ_pos⟩, fun _ => rfl⟩

end Comparisons

end FuzzyInference.Decimal
