import FuzzyInference.Proofs.Decimal.Rounded

/-!
# Values of floating-point numbers

The value of a finite number is a fraction. Comparisons of finite numbers are comparisons of their values, and the
value of a result is that of the exact result, but for a tiny share of it. So what tolerant comparison finds of two
numbers is a matter of their values, as long as their distance is not that of the tolerance itself.

The plan of this module:

* values, and their order;
* differences, products and quotients;
* tolerant comparison.

## Main statements

* `Float.lt_iff_value_lt`, `Float.beq_iff_value_eq`: comparisons
* `Float.exists_sub`, `Float.exists_mul`, `Float.div_spec`: rounded results
* `Float.nearWithin_of_lt`, `Float.nearWithin_eq_false`: tolerant comparison
-/

namespace FuzzyInference

open Float.Model UnpackedFloat
open Scalar

namespace Float

open Decimal

variable {x y : Float}

/-! ## §1 Values -/

/-- The value of a finite number. -/
def value (x : Float) : ℚ := (Binary.ofFloat x).value

theorem isFinite_of_ofFloat {negative : Bool} {m : ℕ} {e : ℤ} (h : Binary.ofFloat x = .finite negative m e) :
    Scalar.isFinite x = true := by
  have hnan : Scalar.isNaN x = false := by
    rw [← Bool.not_eq_true, Decimal.isNaN_iff, h]
    nofun
  have hinf : Scalar.isInf x = false := by
    rw [← Bool.not_eq_true, Decimal.isInf_iff, h]
    nofun
  rw [Scalar.isFinite, hnan, hinf]
  rfl

theorem compare_of_isFinite (hx : Scalar.isFinite x = true) (hy : Scalar.isFinite y = true) :
    x.toModel.unpack.compare y.toModel.unpack = some (compare (value x) (value y)) := by
  obtain ⟨negative, m, e, hm⟩ := exists_of_isFinite hx
  obtain ⟨negative', n, f, hn⟩ := exists_of_isFinite hy
  rw [unpack_eq_unpacked, unpack_eq_unpacked, value, value, hm, hn]
  exact compare_unpacked (isCanonical_of_ofFloat hm).1 (isCanonical_of_ofFloat hn).1

/-- Finite numbers are ordered like their values. -/
theorem lt_iff_value_lt (hx : Scalar.isFinite x = true) (hy : Scalar.isFinite y = true) :
    x < y ↔ value x < value y := by
  rw [lt_iff, compare_of_isFinite hx hy, Option.some.injEq, compare_lt_iff_lt]

/-- Finite numbers are equal if their values are. -/
theorem beq_iff_value_eq (hx : Scalar.isFinite x = true) (hy : Scalar.isFinite y = true) :
    (x == y) = true ↔ value x = value y := by
  have hbeq : (x == y) = (x.toModel.unpack.compare y.toModel.unpack == some .eq) := rfl
  rw [hbeq, compare_of_isFinite hx hy, beq_iff_eq, Option.some.injEq, compare_eq_iff_eq]

/-- The number that is packed from parts has these parts, and their value. -/
theorem spec_of_parts {z : Float} {negative : Bool} {n : ℕ} {u : ℤ} (hcanonical : IsCanonical n u)
    (hz : z = Float.ofModel (Float.Model.pack (Binary.finite negative n u).unpacked)) :
    Scalar.isFinite z = true ∧ value z = if negative then -((n : ℚ) * 2 ^ u) else (n : ℚ) * 2 ^ u := by
  have hparts : Binary.ofFloat z = .finite negative n u := by rw [hz, ofFloat_pack hcanonical]
  refine ⟨isFinite_of_ofFloat hparts, ?_⟩
  rw [value, hparts]
  rfl

/-- The magnitude of a number has its parts without the sign. -/
theorem ofFloat_abs {negative : Bool} {m : ℕ} {e : ℤ} (h : Binary.ofFloat x = .finite negative m e) :
    Binary.ofFloat (Float.abs x) = .finite false m e := by
  have habs : (Binary.finite negative m e).unpacked.abs = (Binary.finite false m e).unpacked := by
    rcases Nat.eq_zero_or_pos m with rfl | hpos
    · rfl
    · rw [Binary.unpacked_of_pos negative hpos, Binary.unpacked_of_pos false hpos]
      rfl
  have hpack : Float.abs x = Float.ofModel (Float.Model.pack x.toModel.unpack.abs) := rfl
  rw [hpack, unpack_eq_unpacked, h, habs, ofFloat_pack (isCanonical_of_ofFloat h).1]

theorem abs_spec (hx : Scalar.isFinite x = true) :
    Scalar.isFinite (Float.abs x) = true ∧ value (Float.abs x) = |value x| := by
  obtain ⟨negative, m, e, hm⟩ := exists_of_isFinite hx
  refine ⟨isFinite_of_ofFloat (ofFloat_abs hm), ?_⟩
  rw [value, value, ofFloat_abs hm, hm, Binary.abs_value]
  rfl

/-! ## §2 Arithmetic -/

/-- A number is finite and has the given value, or that value is too large and the number infinite. -/
def IsResult (z : Float) (r : ℚ) : Prop :=
  Scalar.isFinite z = true ∧ value z = r ∨ Scalar.isInf z = true ∧ 2 * sizeBound ≤ |r|

/-- A rounded number is packed to a finite one of the same value, or is too large and becomes infinite. -/
theorem cases_of_rounded {z : Float} {negative : Bool} {n : ℕ} {u : ℤ} (hrounded : FitsFormat n u)
    (hz : z = Float.ofModel (Float.Model.pack (Binary.finite negative n u).unpacked)) :
    IsResult z (Binary.finite negative n u).value := by
  rcases hrounded.cases with hcanonical | ⟨hu, hn, hlarge⟩
  · exact .inl (spec_of_parts hcanonical hz)
  · right
    rw [Binary.abs_value]
    refine ⟨?_, hlarge⟩
    have hexponent : 2 ^ Format.binary64.exponentBits ≤
        (u + Format.binary64.exponentBias + Format.binary64.mantissaBitsWithoutImplicit).toNat + 1 := by
      change 2 ^ 11 ≤ (u + (1023 : ℕ) + (52 : ℕ)).toNat + 1
      omega
    have hpack : UnpackedFloat.pack Format.binary64 (Binary.finite negative n u).unpacked =
        packedInfinity Format.binary64 (signOf negative) := by
      rw [Binary.unpacked_of_pos negative hn]
      unfold UnpackedFloat.pack
      dsimp only
      rw [if_pos hexponent]
    have hunpack : z.toModel.unpack = .infinity (signOf negative) := by
      rw [hz]
      change UnpackedFloat.unpack Format.binary64
        (UnpackedFloat.pack Format.binary64 (Binary.finite negative n u).unpacked) = _
      rw [hpack, unpack_packedInfinity]
    rw [isInf_eq, hunpack]
    rfl

/-- A result that is off by a small share or less than one is finite below the bound. -/
theorem not_large {v r : ℚ} (hsize : |v| < sizeBound) (herror : |r - v| ≤ |v| / 2 ^ 52 + leastUnit) :
    ¬2 * sizeBound ≤ |r| := by
  have hfour := four_le_sizeBound
  have hleast := leastUnit_le_one
  have htriangle := abs_add_le (r - v) v
  rw [sub_add_cancel] at htriangle
  intro hlarge
  linarith

/-- A difference is rounded by a small share of it, to a closest value. -/
theorem exists_sub (hx : Scalar.isFinite x = true) (hy : Scalar.isFinite y = true) :
    ∃ r, IsResult (x - y) r ∧ |r - (value x - value y)| ≤ |value x - value y| / 2 ^ 52 ∧
      IsClosest r (value x - value y) := by
  obtain ⟨negative, m, e, hm⟩ := exists_of_isFinite hx
  obtain ⟨negative', n, f, hn⟩ := exists_of_isFinite hy
  have hsub : x - y = Float.ofModel (Float.Model.pack (.sub .binary64 x.toModel.unpack y.toModel.unpack)) := rfl
  rw [unpack_eq_unpacked, unpack_eq_unpacked, hm, hn] at hsub
  have hx' : value x = (Binary.finite negative m e).value := congrArg Binary.value hm
  have hy' : value y = (Binary.finite negative' n f).value := congrArg Binary.value hn
  rw [hx', hy']
  obtain ⟨sign, r, u, hparts, hrounded, herror, hclosest⟩ :=
    exists_parts_sub negative negative' (isCanonical_of_ofFloat hm).1 (isCanonical_of_ofFloat hn).1
  exact ⟨_, cases_of_rounded hrounded (hparts ▸ hsub), herror, hclosest⟩

/-- A difference is off by a small share of it, or it is too large. -/
theorem sub_cases (hx : Scalar.isFinite x = true) (hy : Scalar.isFinite y = true) :
    (Scalar.isFinite (x - y) = true ∧ |value (x - y) - (value x - value y)| ≤ |value x - value y| / 2 ^ 52) ∨
    (Scalar.isInf (x - y) = true ∧ sizeBound ≤ |value x - value y|) := by
  obtain ⟨r, hr, herror, -⟩ := exists_sub hx hy
  rcases hr with ⟨hfinite, hvalue⟩ | ⟨hinf, hlarge⟩
  · exact .inl ⟨hfinite, hvalue ▸ herror⟩
  · refine .inr ⟨hinf, not_lt.1 fun hsize => not_large hsize ?_ hlarge⟩
    exact herror.trans (le_add_of_nonneg_right leastUnit_pos.le)

/-- What is taken from a number that is not smaller leaves almost the exact difference. -/
theorem sub_bounds_of_le (hx : Scalar.isFinite x = true) (hy : Scalar.isFinite y = true) (h : value y ≤ value x)
    (hsize : value x - value y < sizeBound) :
    Scalar.isFinite (x - y) = true ∧ (value x - value y) * (1 - 1 / 2 ^ 52) ≤ value (x - y) ∧
      value (x - y) ≤ (value x - value y) * (1 + 1 / 2 ^ 52) := by
  have habs := abs_of_nonneg (sub_nonneg.2 h)
  have hcases := sub_cases hx hy
  rw [habs] at hcases
  obtain ⟨hfinite, herror⟩ := hcases.resolve_right fun hlarge => absurd hsize hlarge.2.not_gt
  obtain ⟨hlow, hhigh⟩ := abs_le.1 herror
  exact ⟨hfinite, by linarith, by linarith⟩

/-- What is taken from a smaller number leaves almost the exact difference. -/
theorem sub_bounds_of_ge (hx : Scalar.isFinite x = true) (hy : Scalar.isFinite y = true) (h : value x ≤ value y)
    (hsize : value y - value x < sizeBound) :
    Scalar.isFinite (x - y) = true ∧ (value x - value y) * (1 + 1 / 2 ^ 52) ≤ value (x - y) ∧
      value (x - y) ≤ (value x - value y) * (1 - 1 / 2 ^ 52) := by
  have habs := abs_of_nonpos (sub_nonpos.2 h)
  have hcases := sub_cases hx hy
  rw [habs, neg_sub] at hcases
  obtain ⟨hfinite, herror⟩ := hcases.resolve_right fun hlarge => absurd hsize hlarge.2.not_gt
  obtain ⟨hlow, hhigh⟩ := abs_le.1 herror
  exact ⟨hfinite, by linarith, by linarith⟩

/-- A product is rounded by a small share of it, or by the least unit, to a closest value. It does not change its
sign. -/
theorem exists_mul (hx : Scalar.isFinite x = true) (hy : Scalar.isFinite y = true) :
    ∃ r, IsResult (x * y) r ∧ |r - value x * value y| ≤ |value x * value y| / 2 ^ 52 + leastUnit ∧
      (0 ≤ value x * value y → 0 ≤ r) ∧ IsClosest r (value x * value y) := by
  obtain ⟨negative, m, e, hm⟩ := exists_of_isFinite hx
  obtain ⟨negative', n, f, hn⟩ := exists_of_isFinite hy
  have hmul : x * y = Float.ofModel (Float.Model.pack (.mul .binary64 x.toModel.unpack y.toModel.unpack)) := rfl
  rw [unpack_eq_unpacked, unpack_eq_unpacked, hm, hn] at hmul
  have hx' : value x = (Binary.finite negative m e).value := congrArg Binary.value hm
  have hy' : value y = (Binary.finite negative' n f).value := congrArg Binary.value hn
  have habs : |value x * value y| = m * 2 ^ e * (n * 2 ^ f) := by
    rw [abs_mul, hx', hy', Binary.abs_value, Binary.abs_value]
  have hmagnitude : (0 : ℚ) ≤ m * 2 ^ e * (n * 2 ^ f) := habs ▸ abs_nonneg _
  have hproduct : value x * value y =
      if negative != negative' then -((m : ℚ) * 2 ^ e * (n * 2 ^ f)) else m * 2 ^ e * (n * 2 ^ f) := by
    rw [hx', hy']
    cases negative <;> cases negative' <;> simp [Binary.value]
  obtain ⟨r, u, hparts, hrounded, hzero, herror, hclosest⟩ := exists_parts_mul negative negative'
    (isCanonical_of_ofFloat hm).1 (isCanonical_of_ofFloat hn).1
  refine ⟨_, cases_of_rounded hrounded (hparts ▸ hmul), ?_, ?_, ?_⟩
  · rw [habs, hproduct, Binary.value, Binary.abs_signed_sub]
    exact herror
  · rw [hproduct, Binary.value]
    cases negative != negative' with
    | false =>
      intro _
      exact mul_nonneg r.cast_nonneg (zpow_nonneg two_pos.le u)
    | true =>
      simp only [if_true]
      intro hnonneg
      -- only a product of zero is not negative here
      have hvanishes : (m : ℚ) * 2 ^ e * (n * 2 ^ f) = 0 := le_antisymm (neg_nonneg.1 hnonneg) hmagnitude
      have hnat : m * n = 0 := by
        have hpow : (2 : ℚ) ^ e ≠ 0 := by positivity
        have hpow' : (2 : ℚ) ^ f ≠ 0 := by positivity
        rw [Nat.mul_eq_zero]
        rcases mul_eq_zero.1 hvanishes with hm₀ | hn₀
        · exact .inl (Nat.cast_eq_zero.1 ((mul_eq_zero.1 hm₀).resolve_right hpow))
        · exact .inr (Nat.cast_eq_zero.1 ((mul_eq_zero.1 hn₀).resolve_right hpow'))
      rw [hzero hnat, Nat.cast_zero, zero_mul, neg_zero]
  · rw [hproduct, Binary.value]
    cases negative != negative' with
    | false => exact hclosest
    | true => exact hclosest.neg

/-- A product is off by a small share of it, or by the least unit, and does not change its sign. -/
theorem mul_spec (hx : Scalar.isFinite x = true) (hy : Scalar.isFinite y = true)
    (hsize : |value x * value y| < sizeBound) :
    Scalar.isFinite (x * y) = true ∧
      |value (x * y) - value x * value y| ≤ |value x * value y| / 2 ^ 52 + leastUnit ∧
      (0 ≤ value x * value y → 0 ≤ value (x * y)) := by
  obtain ⟨r, hr, herror, hsign, -⟩ := exists_mul hx hy
  obtain ⟨hfinite, rfl⟩ := hr.resolve_right fun h => not_large hsize herror h.2
  exact ⟨hfinite, herror, hsign⟩

/-- A quotient is off by a small share of it, or by the least unit. -/
theorem div_spec (hx : Scalar.isFinite x = true) (hy : Scalar.isFinite y = true) (hx₀ : value x ≠ 0)
    (hy₀ : value y ≠ 0) (hsize : |value x / value y| < sizeBound) :
    Scalar.isFinite (x / y) = true ∧
      |value (x / y) - value x / value y| ≤ |value x / value y| / 2 ^ 52 + leastUnit := by
  obtain ⟨negative, m, e, hm⟩ := exists_of_isFinite hx
  obtain ⟨negative', n, f, hn⟩ := exists_of_isFinite hy
  have hdiv : x / y = Float.ofModel (Float.Model.pack (.div .binary64 x.toModel.unpack y.toModel.unpack)) := rfl
  rw [unpack_eq_unpacked, unpack_eq_unpacked, hm, hn] at hdiv
  have hx' : value x = (Binary.finite negative m e).value := congrArg Binary.value hm
  have hy' : value y = (Binary.finite negative' n f).value := congrArg Binary.value hn
  have hpos : ∀ {s : Bool} {k : ℕ} {g : ℤ}, (Binary.finite s k g).value ≠ 0 → 0 < k := by
    intro s k g hne
    apply Nat.pos_of_ne_zero
    rintro rfl
    cases s <;> simp [Binary.value] at hne
  have habs : |value x / value y| = m * 2 ^ e / (n * 2 ^ f) := by
    rw [abs_div, hx', hy', Binary.abs_value, Binary.abs_value]
  have hquotient : value x / value y =
      if negative != negative' then -((m : ℚ) * 2 ^ e / (n * 2 ^ f)) else m * 2 ^ e / (n * 2 ^ f) := by
    rw [hx', hy']
    cases negative <;> cases negative' <;> simp [Binary.value, neg_div, div_neg]
  obtain ⟨r, u, hparts, hrounded, herror⟩ := exists_parts_div negative negative' (isCanonical_of_ofFloat hm).1
    (n := n) (f := f) (hpos (hx' ▸ hx₀)) (hpos (hy' ▸ hy₀))
  have hvalue : |(Binary.finite (negative != negative') r u).value - value x / value y| ≤
      |value x / value y| / 2 ^ 52 + leastUnit := by
    rw [habs, hquotient, Binary.value, Binary.abs_signed_sub]
    exact herror
  obtain ⟨hfinite, hz⟩ := (cases_of_rounded hrounded (hparts ▸ hdiv)).resolve_right
    fun h => not_large hsize hvalue h.2
  exact ⟨hfinite, hz ▸ hvalue⟩

/-! ## §3 Tolerant comparison -/

theorem value_of_parts {m : ℕ} {e : ℤ} (h : Binary.ofFloat x = .finite false m e) : value x = m * 2 ^ e := by
  rw [value, h]
  rfl

@[simp] theorem value_zero : value 0.0 = 0 := by
  rw [value_of_parts (m := 0) (e := -1074) (by decide), Nat.cast_zero, zero_mul]

@[simp] theorem value_half : value 0.5 = 1 / 2 := by
  rw [value_of_parts (m := 4503599627370496) (e := -53) (by decide)]
  norm_num

@[simp] theorem value_one : value 1.0 = 1 := by
  rw [value_of_parts (m := 4503599627370496) (e := -52) (by decide)]
  norm_num

/-- The tolerance is not exactly the decimal fraction that it is written as. -/
theorem value_tolerance_bounds : 99 / 10 ^ 11 < value tolerance ∧ value tolerance < 101 / 10 ^ 11 := by
  rw [value_of_parts (m := 4835703278458517) (e := -82) (by decide)]
  norm_num

theorem isNaN_of_isFinite (h : Scalar.isFinite x = true) : Scalar.isNaN x = false := by
  obtain ⟨negative, m, e, hm⟩ := exists_of_isFinite h
  rw [← Bool.not_eq_true, Decimal.isNaN_iff, hm]
  nofun

variable {eps : Float}

theorem abs_of_isInf (hx : Scalar.isInf x = true) : Float.abs x = inf := by
  have habs : Float.abs x = Float.ofModel (Float.Model.pack (.abs x.toModel.unpack)) := rfl
  obtain ⟨negative, hparts⟩ := Decimal.isInf_iff.1 hx
  rw [habs, unpack_eq_unpacked, hparts]
  cases negative <;> decide

/-- An infinite number is not below any finite one in magnitude. -/
theorem not_abs_lt_of_isInf (heps : Scalar.isFinite eps = true) (hx : Scalar.isInf x = true) :
    ¬Float.abs x < eps := by
  have hinf : (inf : Float).toModel.unpack = .infinity .positive := rfl
  rw [abs_of_isInf hx, lt_iff, hinf]
  obtain ⟨negative, m, e, hm⟩ := exists_of_isFinite heps
  rw [unpack_eq_unpacked, hm]
  rcases Nat.eq_zero_or_pos m with rfl | hpos
  · nofun
  · rw [Binary.unpacked_of_pos negative hpos]
    nofun

/-- Finite numbers are near when their values are the same, or the rounded difference is small. -/
theorem nearWithin_iff (heps : Scalar.isFinite eps = true) (hx : Scalar.isFinite x = true)
    (hy : Scalar.isFinite y = true) :
    nearWithin eps x y = true ↔
      value x = value y ∨ Scalar.isFinite (x - y) = true ∧ |value (x - y)| < value eps := by
  have hlt : Scalar.abs (x - y) < eps ↔ Scalar.isFinite (x - y) = true ∧ |value (x - y)| < value eps := by
    rcases sub_cases hx hy with ⟨hsub, -⟩ | ⟨hinf, -⟩
    · obtain ⟨habs, hvalue⟩ := abs_spec hsub
      rw [← hvalue, hsub]
      exact (lt_iff_value_lt habs heps).trans (and_iff_right rfl).symm
    · have hfinite : Scalar.isFinite (x - y) = false := by rw [Scalar.isFinite, hinf, Bool.or_true, Bool.not_true]
      rw [hfinite]
      exact ⟨fun h => absurd h (not_abs_lt_of_isInf heps hinf), fun h => absurd h.1 Bool.false_ne_true⟩
  rw [nearWithin, Bool.or_eq_true, Bool.or_eq_true, beq_iff_value_eq hx hy, isNaN_of_isFinite hx, Bool.false_and,
    decide_eq_true_eq, hlt]
  simp

/-- Numbers that differ by clearly less than the tolerance are near. -/
theorem nearWithin_of_lt (heps : Scalar.isFinite eps = true) (hone : value eps ≤ 1) (hx : Scalar.isFinite x = true)
    (hy : Scalar.isFinite y = true) (h : |value x - value y| * (1 + 1 / 2 ^ 52) < value eps) :
    nearWithin eps x y = true := by
  have hfour := four_le_sizeBound
  have hnonneg := abs_nonneg (value x - value y)
  obtain ⟨hfinite, herror⟩ := (sub_cases hx hy).resolve_right fun hlarge => by linarith [hlarge.2]
  refine (nearWithin_iff heps hx hy).2 (.inr ⟨hfinite, ?_⟩)
  have htriangle := abs_add_le (value (x - y) - (value x - value y)) (value x - value y)
  rw [sub_add_cancel] at htriangle
  linarith

/-- Numbers that differ by clearly more than the tolerance are not near. -/
theorem nearWithin_eq_false (heps : Scalar.isFinite eps = true) (hpos : 0 < value eps)
    (hx : Scalar.isFinite x = true) (hy : Scalar.isFinite y = true)
    (h : value eps ≤ |value x - value y| * (1 - 1 / 2 ^ 52)) : nearWithin eps x y = false := by
  rw [← Bool.not_eq_true, nearWithin_iff heps hx hy]
  rintro (hsame | ⟨hfinite, hlt⟩)
  · rw [hsame, sub_self, abs_zero, zero_mul] at h
    linarith
  · have herror : |value (x - y) - (value x - value y)| ≤ |value x - value y| / 2 ^ 52 := by
      rcases sub_cases hx hy with ⟨-, herror⟩ | ⟨hinf, -⟩
      · exact herror
      · rw [Scalar.isFinite, hinf, Bool.or_true] at hfinite
        cases hfinite
    have htriangle := abs_sub_abs_le_abs_sub (value x - value y) (value (x - y))
    rw [abs_sub_comm] at herror
    linarith

end Float

end FuzzyInference
