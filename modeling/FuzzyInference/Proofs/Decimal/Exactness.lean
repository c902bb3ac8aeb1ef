import FuzzyInference.Proofs.Decimal.Value
import FuzzyInference.Proofs.Faults.Formulas
import FuzzyInference.Proofs.Formula.Signs

/-!
# Exact and lost results

What rounding leaves alone: a difference is zero only if the numbers are equal, doubling and halving again are exact,
a difference does not get below a number that the exact one is not below, and what is much smaller than a number is
lost in it. Results that are finite come from finite operands, except for quotients by an infinity, and the sign of a
product or a quotient is that of its operands, whatever is rounded.

The plan of this module:

* operands of finite results;
* numbers of the same value;
* exact, ordered and lost results;
* signs.

## Main statements

* `Float.sub_beq_zero_iff`: differences that are zero
* `Float.near_congr`: equal numbers are near the same numbers
* `Float.le_value_sub`, `Float.value_sub_of_small`: ordered and lost differences
* `Float.HasSign.mul`, `Float.HasSign.div`, `Float.HasSign.add`: signs
-/

namespace FuzzyInference

open Float.Model UnpackedFloat
open Scalar

namespace Float

open Decimal

variable {x y z a b : Float}

/-! ## §1 Operands of finite results -/

/-- Packing does not make an infinity or `nan` finite. -/
theorem isFinite_of_pack {u : UnpackedFloat} (h : (Float.Model.pack u).unpack.isFinite = true) : u.isFinite = true := by
  cases u with
  | notANumber => revert h; decide
  | infinity s => revert h; cases s <;> decide
  | zero s => rfl
  | finite s m e hm => rfl

theorem isFinite_of_sub (h : Scalar.isFinite (x - y) = true) :
    Scalar.isFinite x = true ∧ Scalar.isFinite y = true := by
  have hsub : (x - y).toModel = Float.Model.pack (.sub .binary64 x.toModel.unpack y.toModel.unpack) := rfl
  rw [isFinite_eq, hsub] at h
  have hfinite := isFinite_of_pack h
  rw [isFinite_eq, isFinite_eq]
  generalize x.toModel.unpack = u at hfinite ⊢
  generalize y.toModel.unpack = v at hfinite ⊢
  cases u with
  | notANumber => cases hfinite
  | infinity s =>
    cases v with
    | infinity t => cases s <;> cases t <;> cases hfinite
    | _ => cases hfinite
  | _ =>
    cases v with
    | notANumber => cases hfinite
    | infinity t => cases hfinite
    | _ => exact ⟨rfl, rfl⟩

theorem isFinite_of_mul (h : Scalar.isFinite (x * y) = true) :
    Scalar.isFinite x = true ∧ Scalar.isFinite y = true := by
  have hmul : (x * y).toModel = Float.Model.pack (.mul .binary64 x.toModel.unpack y.toModel.unpack) := rfl
  rw [isFinite_eq, hmul] at h
  have hfinite := isFinite_of_pack h
  rw [isFinite_eq, isFinite_eq]
  generalize x.toModel.unpack = u at hfinite ⊢
  generalize y.toModel.unpack = v at hfinite ⊢
  cases u with
  | notANumber => cases hfinite
  | infinity s => cases v <;> cases hfinite
  | _ =>
    cases v with
    | notANumber => cases hfinite
    | infinity t => cases hfinite
    | _ => exact ⟨rfl, rfl⟩

theorem isFinite_of_beq_zero (h : (x == 0.0) = true) : Scalar.isFinite x = true := by
  obtain ⟨negative, e, hx⟩ := beq_zero_iff.1 h
  exact isFinite_of_ofFloat hx

/-- A quotient is finite if its operands are and the divisor is not zero, or if it is zero. -/
theorem isFinite_of_div (h : Scalar.isFinite (x / y) = true) :
    Scalar.isFinite x = true ∧ (y == 0.0) = false ∧ ((x / y == 0.0) = true ∨ Scalar.isFinite y = true) := by
  have hdiv : (x / y).toModel = Float.Model.pack (.div .binary64 x.toModel.unpack y.toModel.unpack) := rfl
  have hzero : (y == 0.0) = false := by
    rw [← Bool.not_eq_true]
    intro hzero
    rw [isFinite_div_of_zero x hzero] at h
    cases h
  have hbeq : (x / y == 0.0) = ((x / y).toModel.unpack.compare (.zero .positive) == some .eq) := rfl
  rw [isFinite_eq, hdiv] at h
  have hfinite := isFinite_of_pack h
  rw [isFinite_eq, isFinite_eq, hbeq, hdiv]
  refine ⟨?_, hzero, ?_⟩
  · generalize x.toModel.unpack = u at hfinite ⊢
    generalize y.toModel.unpack = v at hfinite
    cases u with
    | notANumber => cases hfinite
    | infinity s => cases v <;> cases hfinite
    | _ => rfl
  · generalize x.toModel.unpack = u at hfinite ⊢
    generalize y.toModel.unpack = v at hfinite ⊢
    cases v with
    | notANumber => cases u <;> cases hfinite
    | infinity t =>
      -- the quotient by an infinity is a zero
      left
      cases u with
      | notANumber => cases hfinite
      | infinity s => cases hfinite
      | zero s => cases s <;> cases t <;> decide
      | finite s m e hm =>
        change ((Float.Model.pack (.zero (s / t))).unpack.compare (.zero .positive) == some .eq) = true
        cases s <;> cases t <;> decide
    | _ => exact .inr rfl

/-! ## §2 Numbers of the same value -/

theorem add_eq_sub_neg (x y : Float) : x + y = x - -y := by
  have hadd : x + y = Float.ofModel (Float.Model.pack (.add .binary64 x.toModel.unpack y.toModel.unpack)) := rfl
  have hsub : x - -y = Float.ofModel (Float.Model.pack (.sub .binary64 x.toModel.unpack (-y).toModel.unpack)) := rfl
  rw [hadd, hsub, unpack_neg]
  congr 2
  generalize x.toModel.unpack = u
  generalize y.toModel.unpack = v
  cases u with
  | notANumber => cases v <;> rfl
  | infinity s =>
    cases v with
    | infinity t => cases s <;> cases t <;> rfl
    | _ => rfl
  | zero s =>
    cases v with
    | zero t => cases s <;> cases t <;> rfl
    | finite t n f hn => cases t <;> rfl
    | notANumber => rfl
    | infinity t => cases t <;> rfl
  | finite s m e hm =>
    cases v with
    | finite t n f hn =>
      -- taking away the opposite adds
      have happly : ∀ k : ℤ, s.apply (m <<< (e - min e f).toNat : ℕ) + t.apply k =
          s.apply (m <<< (e - min e f).toNat : ℕ) - (-t).apply k := by
        intro k
        cases t with
        | positive => exact (Int.sub_neg _ _).symm
        | negative => exact (Int.sub_eq_add_neg).symm
      exact congrArg (fun d => normalize Format.binary64 d (min e f) .positive) (happly _)
    | infinity t => cases t <;> rfl
    | _ => rfl

theorem neg_spec (hx : Scalar.isFinite x = true) : Scalar.isFinite (-x) = true ∧ value (-x) = -value x := by
  obtain ⟨negative, m, e, hm⟩ := exists_of_isFinite hx
  have hneg : -x = Float.ofModel (Float.Model.pack x.toModel.unpack.neg) := rfl
  have hflip : (Binary.finite negative m e).unpacked.neg = (Binary.finite (!negative) m e).unpacked := by
    rcases Nat.eq_zero_or_pos m with rfl | hpos
    · cases negative <;> rfl
    · rw [Binary.unpacked_of_pos negative hpos, Binary.unpacked_of_pos _ hpos]
      cases negative <;> rfl
  rw [unpack_eq_unpacked, hm, hflip] at hneg
  have hparts : Binary.ofFloat (-x) = .finite (!negative) m e := by
    rw [hneg, ofFloat_pack (isCanonical_of_ofFloat hm).1]
  refine ⟨isFinite_of_ofFloat hparts, ?_⟩
  rw [value, value, hparts, hm, Binary.value_not]

/-- A difference is zero if the numbers are equal, and only then. -/
theorem sub_beq_zero_iff : (x - y == 0.0) = true ↔
    Scalar.isFinite x = true ∧ Scalar.isFinite y = true ∧ value x = value y := by
  have hzero : Scalar.isFinite (0.0 : Float) = true := by decide
  constructor
  · intro h
    have hfinite := isFinite_of_beq_zero h
    obtain ⟨hx, hy⟩ := isFinite_of_sub hfinite
    rw [beq_iff_value_eq hfinite hzero, value_zero] at h
    refine ⟨hx, hy, sub_eq_zero.1 (abs_nonpos_iff.1 ?_)⟩
    rcases sub_cases hx hy with ⟨-, herror⟩ | ⟨hinf, -⟩
    · rw [h, zero_sub, abs_neg] at herror
      linarith
    · rw [Scalar.isFinite, hinf, Bool.or_true] at hfinite
      cases hfinite
  · rintro ⟨hx, hy, heq⟩
    have hcases := sub_cases hx hy
    rw [heq, sub_self, sub_zero, abs_zero, zero_div] at hcases
    have hsize := four_le_sizeBound
    obtain ⟨hfinite, hvalue⟩ := hcases.resolve_right fun h => by linarith [h.2]
    rw [beq_iff_value_eq hfinite hzero, value_zero]
    exact abs_nonpos_iff.1 hvalue

/-- Finite numbers of the same value are the same, unless they are zeros. -/
theorem eq_or_zero_of_value_eq (hx : Scalar.isFinite x = true) (hy : Scalar.isFinite y = true)
    (h : value x = value y) : x = y ∨ value x = 0 := by
  by_cases hzero : value x = 0
  · exact .inr hzero
  left
  obtain ⟨negative, m, e, hm⟩ := exists_of_isFinite hx
  obtain ⟨negative', n, f, hn⟩ := exists_of_isFinite hy
  have hcanonical := (isCanonical_of_ofFloat hm).1
  have hcanonical' := (isCanonical_of_ofFloat hn).1
  have hx' : value x = (Binary.finite negative m e).value := congrArg Binary.value hm
  have hy' : value y = (Binary.finite negative' n f).value := congrArg Binary.value hn
  have hmagnitude : (m : ℚ) * 2 ^ e = n * 2 ^ f := by
    rw [← Binary.abs_value negative m e, ← Binary.abs_value negative' n f, ← hx', ← hy', h]
  obtain ⟨rfl, rfl⟩ : e = f ∧ m = n := by
    have hcompare := compare_magnitude hcanonical hcanonical'
    rwa [hmagnitude, compare_eq_iff_eq.2 rfl, Ordering.then_eq_eq, compare_eq_iff_eq, compare_eq_iff_eq] at hcompare
  have hsame : negative = negative' := by
    rw [hx', hy'] at h
    rw [hx'] at hzero
    cases negative <;> cases negative' <;> simp only [Binary.value, if_true, if_false, Bool.false_eq_true] at h hzero ⊢
    · exact absurd (self_eq_neg.1 h) hzero
    · exact absurd (neg_eq_self.1 h) (fun h => hzero (by rw [h, neg_zero]))
  apply eq_of_unpack
  rw [unpack_eq_unpacked, unpack_eq_unpacked, hm, hn, hsame]

/-- Both zeros compare with everything alike. -/
theorem compare_zero (u : UnpackedFloat) (s t : Sign) :
    u.compare (.zero s) = u.compare (.zero t) ∧
      (UnpackedFloat.zero s).compare u = (UnpackedFloat.zero t).compare u := by
  cases u with
  | infinity r => cases r <;> exact ⟨rfl, rfl⟩
  | finite r m e hm => cases r <;> exact ⟨rfl, rfl⟩
  | _ => exact ⟨rfl, rfl⟩

/-- What does not tell the zeros apart does not tell numbers of the same value apart. -/
theorem iff_of_value_eq {P : Float → Prop} (hzeros : P (-0.0) ↔ P 0.0) (ha : Scalar.isFinite a = true)
    (hb : Scalar.isFinite b = true) (h : value a = value b) : P a ↔ P b := by
  have hzero : ∀ c : Float, Scalar.isFinite c = true → value c = 0 → (P c ↔ P 0.0) := by
    intro c hc hvalue
    obtain ⟨negative, e, hparts⟩ := beq_zero_iff.1 ((beq_iff_value_eq hc (by decide)).2 (hvalue.trans value_zero.symm))
    have hunpack : c.toModel.unpack = .zero (signOf negative) := by
      rw [unpack_eq_unpacked, hparts]
      rfl
    cases negative with
    | false =>
      obtain rfl : c = 0.0 := eq_of_unpack hunpack
      exact Iff.rfl
    | true =>
      obtain rfl : c = -0.0 := eq_of_unpack hunpack
      exact hzeros
  rcases eq_or_zero_of_value_eq ha hb h with rfl | hvalue
  · exact Iff.rfl
  · exact (hzero a ha hvalue).trans (hzero b hb (h ▸ hvalue)).symm

theorem lt_congr_right (ha : Scalar.isFinite a = true) (hb : Scalar.isFinite b = true) (h : value a = value b) :
    x < a ↔ x < b := by
  refine iff_of_value_eq (P := fun c => x < c) ?_ ha hb h
  have hcompare : x.toModel.unpack.compare (-0.0 : Float).toModel.unpack = x.toModel.unpack.compare _ :=
    (compare_zero x.toModel.unpack .negative .positive).1
  rw [lt_iff, lt_iff, hcompare]
  exact Iff.rfl

theorem lt_congr_left (ha : Scalar.isFinite a = true) (hb : Scalar.isFinite b = true) (h : value a = value b) :
    a < x ↔ b < x := by
  refine iff_of_value_eq (P := fun c => c < x) ?_ ha hb h
  have hcompare : (-0.0 : Float).toModel.unpack.compare x.toModel.unpack = UnpackedFloat.compare _ _ :=
    (compare_zero x.toModel.unpack .negative .positive).2
  rw [lt_iff, lt_iff, hcompare]
  exact Iff.rfl

theorem near_of_value_eq (hx : Scalar.isFinite x = true) (ha : Scalar.isFinite a = true) (h : value x = value a) :
    near x a = true := by
  rw [near, nearWithin, (beq_iff_value_eq hx ha).2 h]
  rfl

/-- Numbers of the same value are near the same numbers. -/
theorem near_congr (ha : Scalar.isFinite a = true) (hb : Scalar.isFinite b = true) (h : value a = value b)
    (x : Float) : near x a = near x b := by
  refine Bool.eq_iff_iff.2 (iff_of_value_eq (P := fun c => near x c = true) ?_ ha hb h)
  cases hx : x.toModel.unpack with
  | notANumber =>
    obtain rfl : x = nan := eq_of_unpack hx
    decide
  | infinity s =>
    cases s with
    | positive =>
      obtain rfl : x = inf := eq_of_unpack hx
      decide
    | negative =>
      obtain rfl : x = -inf := eq_of_unpack hx
      decide
  | zero s =>
    cases s with
    | positive =>
      obtain rfl : x = 0.0 := eq_of_unpack hx
      decide
    | negative =>
      obtain rfl : x = -0.0 := eq_of_unpack hx
      decide
  | finite s m e hm =>
    -- taking away a zero of either sign leaves the number
    have hbeq : (x == -0.0) = (x == 0.0) :=
      congrArg (· == some Ordering.eq) (compare_zero x.toModel.unpack .negative .positive).1
    have hsub : ∀ t, Float.ofModel (Float.Model.pack (.sub .binary64 x.toModel.unpack (.zero t))) = x := by
      intro t
      have hself : UnpackedFloat.sub .binary64 x.toModel.unpack (.zero t) = x.toModel.unpack := by
        rw [hx]
        rfl
      rw [hself, ofModel_pack_unpack]
    have hnegative : x - -0.0 = x := hsub .negative
    have hpositive : x - 0.0 = x := hsub .positive
    rw [near, nearWithin, near, nearWithin, hnegative, hpositive, hbeq]
    exact Iff.rfl

theorem below_congr (ha : Scalar.isFinite a = true) (hb : Scalar.isFinite b = true) (h : value a = value b)
    (x : Float) : below x a = below x b := by
  have hnear := near_congr ha hb h x
  rw [near, near] at hnear
  rw [below, belowWithin, below, belowWithin, hnear, decide_eq_decide.2 (lt_congr_right ha hb h)]

theorem above_congr (ha : Scalar.isFinite a = true) (hb : Scalar.isFinite b = true) (h : value a = value b)
    (x : Float) : above x a = above x b := by
  have hnear := near_congr ha hb h x
  rw [near, near] at hnear
  rw [above, aboveWithin, above, aboveWithin, hnear, decide_eq_decide.2 (lt_congr_left ha hb h)]

theorem atMost_congr (ha : Scalar.isFinite a = true) (hb : Scalar.isFinite b = true) (h : value a = value b)
    (x : Float) : atMost x a = atMost x b := by
  have hnear := near_congr ha hb h x
  rw [near, near] at hnear
  rw [atMost, atMostWithin, atMost, atMostWithin, hnear, decide_eq_decide.2 (lt_congr_right ha hb h)]

/-- A number that is not finite is not below anything in magnitude. -/
theorem not_abs_lt_of_not_isFinite (hx : Scalar.isFinite x = false) (ha : Scalar.isFinite a = true) :
    ¬Float.abs x < a := by
  rcases cases_of_not_isFinite hx with rfl | rfl | rfl
  · exact not_nan_lt a
  · exact not_abs_lt_of_isInf ha (by decide)
  · exact not_abs_lt_of_isInf ha (by decide)

/-- Finite numbers are near finite numbers only. -/
theorem isFinite_of_near (h : near x a = true) : Scalar.isFinite x = Scalar.isFinite a := by
  rw [near, nearWithin, Bool.or_eq_true, Bool.or_eq_true, Bool.and_eq_true, decide_eq_true_eq] at h
  rcases h with (hbeq | ⟨hx, ha⟩) | hlt
  · have hcompare : (x.toModel.unpack.compare a.toModel.unpack == some .eq) = true := hbeq
    rw [isFinite_eq, isFinite_eq]
    generalize x.toModel.unpack = u at hcompare ⊢
    generalize a.toModel.unpack = v at hcompare ⊢
    cases u with
    | notANumber => cases hcompare
    | infinity s =>
      cases v with
      | infinity t => rfl
      | notANumber => cases hcompare
      | zero t => cases s <;> cases hcompare
      | finite t n f hn => cases s <;> cases hcompare
    | zero s =>
      cases v with
      | infinity t => cases t <;> cases hcompare
      | notANumber => cases hcompare
      | _ => rfl
    | finite s m e hm =>
      cases v with
      | infinity t => cases t <;> cases hcompare
      | notANumber => cases hcompare
      | _ => rfl
  · rw [Scalar.isFinite, Scalar.isFinite, hx, ha]
    rfl
  · by_cases hfinite : Scalar.isFinite (x - a) = true
    · obtain ⟨hx, ha⟩ := isFinite_of_sub hfinite
      rw [hx, ha]
    · exact absurd hlt (not_abs_lt_of_not_isFinite (Bool.eq_false_iff.2 hfinite) (by decide))

theorem lt_inf (ha : Scalar.isFinite a = true) : a < inf := by
  have hinf : (inf : Float).toModel.unpack = .infinity .positive := rfl
  rw [isFinite_eq] at ha
  rw [lt_iff, hinf]
  cases hu : a.toModel.unpack with
  | notANumber => rw [hu] at ha; cases ha
  | infinity s => rw [hu] at ha; cases ha
  | _ => rfl

theorem neg_inf_lt (ha : Scalar.isFinite a = true) : -inf < a := by
  have hinf : (-inf : Float).toModel.unpack = .infinity .negative := rfl
  rw [isFinite_eq] at ha
  rw [lt_iff, hinf]
  cases hu : a.toModel.unpack with
  | notANumber => rw [hu] at ha; cases ha
  | infinity s => rw [hu] at ha; cases ha
  | _ => rfl

theorem not_lt_neg_inf (x : Float) : ¬x < -inf := by
  have hinf : (-inf : Float).toModel.unpack = .infinity .negative := rfl
  rw [lt_iff, hinf]
  cases x.toModel.unpack with
  | infinity s => cases s <;> nofun
  | _ => nofun

/-- A number that is not near another one is below it or above it. -/
theorem lt_or_lt_of_not_near (hx : isNaN x = false) (ha : Scalar.isFinite a = true) (h : near x a = false) :
    x < a ∨ a < x := by
  by_cases hfinite : Scalar.isFinite x = true
  · rw [lt_iff_value_lt hfinite ha, lt_iff_value_lt ha hfinite]
    refine lt_or_gt_of_ne fun heq => ?_
    rw [near_of_value_eq hfinite ha heq] at h
    cases h
  · rcases cases_of_not_isFinite (Bool.eq_false_iff.2 hfinite) with rfl | rfl | rfl
    · cases hx
    · exact .inr (lt_inf ha)
    · exact .inl (neg_inf_lt ha)

/-! ## §3 Exact, ordered and lost results -/

theorem isRepresentable_value (hx : Scalar.isFinite x = true) : IsRepresentable (value x) := by
  obtain ⟨negative, m, e, hm⟩ := exists_of_isFinite hx
  have hcanonical := (isCanonical_of_ofFloat hm).1
  have hrepresentable : IsRepresentable (m * 2 ^ e) :=
    ⟨m, e, by rw [Nat.abs_cast]; exact_mod_cast hcanonical.lt, hcanonical.least, by rw [Int.cast_natCast]⟩
  rw [value, hm]
  cases negative with
  | false => exact hrepresentable
  | true => exact hrepresentable.neg

theorem abs_value_lt (hx : Scalar.isFinite x = true) : |value x| < 2 * sizeBound := by
  obtain ⟨negative, m, e, hm⟩ := exists_of_isFinite hx
  have hcanonical := (isCanonical_of_ofFloat hm).1
  have hlt : (m : ℚ) < 2 ^ 53 := by exact_mod_cast hcanonical.lt
  have hpow : (2 : ℚ) ^ e ≤ 2 ^ (971 : ℤ) := zpow_le_zpow_right₀ one_le_two hcanonical.greatest
  rw [value, hm, Binary.abs_value]
  calc (m : ℚ) * 2 ^ e < 2 ^ 53 * 2 ^ e := mul_lt_mul_of_pos_right hlt (by positivity)
    _ ≤ 2 ^ 53 * 2 ^ (971 : ℤ) := mul_le_mul_of_nonneg_left hpow (by positivity)
    _ = 2 * sizeBound := by
      rw [sizeBound, ← zpow_natCast, ← zpow_add₀ two_ne_zero, ← zpow_one_add₀ two_ne_zero]
      rfl

theorem isInf_ne_isFinite (h : Scalar.isInf x = true) : Scalar.isFinite x = false := by
  rw [Scalar.isFinite, h, Bool.or_true, Bool.not_true]

theorem eq_of_isInf (h : Scalar.isInf x = true) : x = inf ∨ x = -inf := by
  refine (cases_of_not_isFinite (isInf_ne_isFinite h)).resolve_left ?_
  rintro rfl
  cases h

/-- A result that is finite has the value. -/
theorem IsResult.value_eq {r : ℚ} (h : IsResult z r) (hz : Scalar.isFinite z = true) : value z = r := by
  refine (h.resolve_right fun hinf => ?_).2
  rw [isInf_ne_isFinite hinf.1] at hz
  cases hz

/-- A difference that has the bits of the format is exact. -/
theorem isResult_sub (hx : Scalar.isFinite x = true) (hy : Scalar.isFinite y = true)
    (h : IsRepresentable (value x - value y)) : IsResult (x - y) (value x - value y) := by
  obtain ⟨r, hr, -, hclosest⟩ := exists_sub hx hy
  rwa [hclosest.eq_of_isRepresentable h] at hr

/-- A product that has the bits of the format is exact. -/
theorem isResult_mul (hx : Scalar.isFinite x = true) (hy : Scalar.isFinite y = true)
    (h : IsRepresentable (value x * value y)) : IsResult (x * y) (value x * value y) := by
  obtain ⟨r, hr, -, -, hclosest⟩ := exists_mul hx hy
  rwa [hclosest.eq_of_isRepresentable h] at hr

/-- A difference does not get below a number that the exact one is not below. -/
theorem le_value_sub (hz : Scalar.isFinite z = true) (h : value z ≤ value x - value y)
    (hfinite : Scalar.isFinite (x - y) = true) : value z ≤ value (x - y) := by
  obtain ⟨hx, hy⟩ := isFinite_of_sub hfinite
  obtain ⟨r, hr, -, hclosest⟩ := exists_sub hx hy
  rw [hr.value_eq hfinite]
  exact hclosest.le_of_le (isRepresentable_value hz) h

/-- What is much smaller than a number is lost in it. -/
theorem value_sub_of_small (hx : Scalar.isFinite x = true) (hy : Scalar.isFinite y = true)
    (hsize : |value x - value y| < sizeBound) (hsmall : 2 ^ 55 * |value y| < |value x|) :
    Scalar.isFinite (x - y) = true ∧ value (x - y) = value x := by
  obtain ⟨hfinite, -⟩ := (sub_cases hx hy).resolve_right fun h => absurd hsize h.2.not_gt
  obtain ⟨r, hr, -, hclosest⟩ := exists_sub hx hy
  obtain rfl := hr.value_eq hfinite
  refine ⟨hfinite, hclosest.eq_of_small (isRepresentable_value hfinite) (isRepresentable_value hx) ?_⟩
  rwa [sub_sub_cancel]

/-- A finite difference is at least half and at most twice the exact one. -/
theorem abs_value_sub_bounds (h : Scalar.isFinite (x - y) = true) :
    |value x - value y| ≤ 2 * |value (x - y)| ∧ |value (x - y)| ≤ 2 * |value x - value y| := by
  obtain ⟨hx, hy⟩ := isFinite_of_sub h
  obtain ⟨r, hr, herror, -⟩ := exists_sub hx hy
  rw [← hr.value_eq h] at herror
  have hnonneg := abs_nonneg (value x - value y)
  have hlow := abs_sub_abs_le_abs_sub (value x - value y) (value (x - y))
  have hhigh := abs_sub_abs_le_abs_sub (value (x - y)) (value x - value y)
  rw [abs_sub_comm (value x - value y) (value (x - y))] at hlow
  constructor
  · linarith
  · linarith

/-! ## §4 Signs -/

/-- An unpacked number is `nan` or has the given sign, zeros and infinities included. -/
def HasSign (s : Sign) : UnpackedFloat → Prop
  | .notANumber => True
  | .infinity t | .zero t | .finite t .. => t = s

namespace HasSign

variable {s t : Sign} {u v : UnpackedFloat}

theorem exists_sign (u : UnpackedFloat) : ∃ s, HasSign s u := by
  cases u with
  | notANumber => exact ⟨.positive, trivial⟩
  | infinity t => exact ⟨t, rfl⟩
  | zero t => exact ⟨t, rfl⟩
  | finite t m e hm => exact ⟨t, rfl⟩

theorem of_pos {x : Float} (h : 0.0 < x) : HasSign .positive x.toModel.unpack := by
  obtain hx | ⟨m, e, hm, hx⟩ := unpack_of_pos h
  · rw [hx]
    rfl
  · rw [hx]
    rfl

/-- Packing keeps the sign. -/
theorem pack (h : HasSign s u) : HasSign s (Float.Model.pack u).unpack := by
  have hbits : ∀ (e : BitVec Format.binary64.exponentBits) (m : BitVec Format.binary64.mantissaBitsWithoutImplicit),
      HasSign s (UnpackedFloat.unpack Format.binary64 (packComponents Format.binary64 s e m)) := by
    intro e m
    have hsign : Sign.ofBitVec s.toBitVec = s := by cases s <;> rfl
    unfold UnpackedFloat.unpack
    simp only [unpackExponent_packComponents, unpackMantissa_packComponents, unpackSign_packComponents, hsign]
    split_ifs
    · rfl
    · trivial
    · rfl
    · rfl
    · rfl
  change HasSign s (UnpackedFloat.unpack Format.binary64 (UnpackedFloat.pack Format.binary64 u))
  cases u with
  | notANumber => trivial
  | infinity t =>
    cases h
    change HasSign s (UnpackedFloat.unpack Format.binary64 (packedInfinity Format.binary64 s))
    rw [unpack_packedInfinity]
    rfl
  | zero t =>
    cases h
    exact hbits _ _
  | finite t m e hm =>
    cases h
    unfold UnpackedFloat.pack
    dsimp only
    split_ifs
    · rw [unpack_packedInfinity]
      rfl
    · exact hbits _ _
    · exact hbits _ _

/-- Rounding keeps the sign. -/
theorem roundWithAccuracy (s : Sign) (m : ℕ) (e : ℤ) (a : Accuracy) :
    HasSign s (UnpackedFloat.roundWithAccuracy Format.binary64 s m e a) := by
  unfold UnpackedFloat.roundWithAccuracy
  dsimp only
  split_ifs
  · rfl
  · rfl

theorem mul {x y : Float} (hx : HasSign s x.toModel.unpack) (hy : HasSign t y.toModel.unpack) :
    HasSign (s * t) (x * y).toModel.unpack := by
  have hmul : (x * y).toModel = Float.Model.pack (.mul .binary64 x.toModel.unpack y.toModel.unpack) := rfl
  rw [hmul]
  refine pack ?_
  generalize x.toModel.unpack = u at hx ⊢
  generalize y.toModel.unpack = v at hy ⊢
  cases u with
  | notANumber => trivial
  | infinity _ => cases hx; cases v <;> cases hy <;> trivial
  | zero _ => cases hx; cases v <;> cases hy <;> trivial
  | finite _ m e hm =>
    cases hx
    cases v with
    | finite _ n f hn =>
      cases hy
      exact roundWithAccuracy _ _ _ _
    | _ => cases hy; trivial

theorem div {x y : Float} (hx : HasSign s x.toModel.unpack) (hy : HasSign t y.toModel.unpack) :
    HasSign (s / t) (x / y).toModel.unpack := by
  have hdiv : (x / y).toModel = Float.Model.pack (.div .binary64 x.toModel.unpack y.toModel.unpack) := rfl
  rw [hdiv]
  refine pack ?_
  generalize x.toModel.unpack = u at hx ⊢
  generalize y.toModel.unpack = v at hy ⊢
  cases u with
  | notANumber => trivial
  | infinity _ => cases hx; cases v <;> cases hy <;> trivial
  | zero _ => cases hx; cases v <;> cases hy <;> trivial
  | finite _ m e hm =>
    cases hx
    cases v with
    | finite _ n f hn =>
      cases hy
      exact roundWithAccuracy _ _ _ _
    | _ => cases hy; trivial

/-- Nothing is taken from a sum of numbers that are not negative. -/
theorem add {x y : Float} (hx : HasSign .positive x.toModel.unpack) (hy : HasSign .positive y.toModel.unpack) :
    HasSign .positive (x + y).toModel.unpack := by
  have hadd : (x + y).toModel = Float.Model.pack (.add .binary64 x.toModel.unpack y.toModel.unpack) := rfl
  rw [hadd]
  refine pack ?_
  generalize x.toModel.unpack = u at hx ⊢
  generalize y.toModel.unpack = v at hy ⊢
  cases u with
  | notANumber => trivial
  | infinity _ => cases hx; cases v <;> cases hy <;> trivial
  | zero _ => cases hx; cases v <;> cases hy <;> trivial
  | finite _ m e hm =>
    cases hx
    cases v with
    | finite _ n f hn =>
      cases hy
      rw [add_positive]
      exact roundWithAccuracy _ _ _ _
    | _ => cases hy; trivial

theorem neg {x : Float} (hx : HasSign s x.toModel.unpack) : HasSign (-s) (-x).toModel.unpack := by
  rw [unpack_neg]
  cases hu : x.toModel.unpack with
  | notANumber => trivial
  | _ =>
    rw [hu] at hx
    cases hx
    rfl

theorem abs (x : Float) : HasSign .positive (Float.abs x).toModel.unpack := by
  have habs : (Float.abs x).toModel = Float.Model.pack x.toModel.unpack.abs := rfl
  rw [habs]
  refine pack ?_
  cases x.toModel.unpack <;> trivial

/-- The square of a number is not negative. -/
theorem mul_self (x : Float) : HasSign .positive (x * x).toModel.unpack := by
  obtain ⟨s, hs⟩ := exists_sign x.toModel.unpack
  have hself := hs.mul hs
  cases s <;> exact hself

/-- What is not positive is not above a positive number. -/
theorem not_lt {x y : Float} (hx : HasSign .negative x.toModel.unpack) (hy : 0.0 < y) : ¬y < x := by
  rw [lt_iff]
  rcases unpack_of_pos hy with hy | ⟨n, f, hn, hy⟩
  · rw [hy]
    cases hu : x.toModel.unpack with
    | infinity t => rw [hu] at hx; cases hx; nofun
    | _ => nofun
  · rw [hy]
    cases hu : x.toModel.unpack with
    | notANumber => nofun
    | _ => rw [hu] at hx; cases hx; nofun

/-- One and a number that is not negative do not cancel out. -/
theorem one_add_beq_zero {x : Float} (hx : HasSign .positive x.toModel.unpack) : (1.0 + x == 0.0) = false := by
  rw [← Bool.not_eq_true, add_eq_sub_neg, sub_beq_zero_iff]
  rintro ⟨hone, hfinite, hvalue⟩
  -- the opposite of the number would be one, and so above one half
  refine hx.neg.not_lt (y := 0.5) (by decide) ?_
  rw [lt_iff_value_lt (by decide) hfinite, ← hvalue, ← lt_iff_value_lt (by decide) hone]
  decide

end HasSign

end Float

end FuzzyInference
