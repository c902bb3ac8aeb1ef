import FuzzyInference.Proofs.Faults.Roots
import FuzzyInference.Proofs.Marks

/-!
# Rules that do not fire

A rule fires with a degree that is greater than zero by more than the tolerance. Two degrees never become
such a degree, whatever the weight of the rule: `nan`, which stays `nan` under every operation, and zero,
whose product with a weight is a zero or `nan`. An activation method does not change that: it fires a rule
with its own degree or, where the method is proportional, with a share of a degree that is positive already.

The plan of this module:

* `nan` and the zeros in floating-point arithmetic;
* a rule that never gets a positive degree, in a block and in a cycle.

## Main statements

* `Float.above_mul_eq_false`: no weight makes `nan` or zero positive
* `Engine.not_fires_of_degree`: a rule without a positive degree does not fire
-/

namespace FuzzyInference

open Float.Model UnpackedFloat
open Scalar Checked

/-! ## §1 `nan` and the zeros -/

namespace Float

variable {x y : Float}

/-- Floating-point numbers have one `nan`, so that the unpacked form determines the number. -/
theorem eq_of_unpack (h : x.toModel.unpack = y.toModel.unpack) : x = y := by
  obtain ⟨m, hm⟩ := x
  obtain ⟨n, hn⟩ := y
  cases UInt64.toBitVec_inj.1 ((unpack_inj_of_valid hm hn).1 h)
  rfl

theorem ofModel_pack_unpack (x : Float) : Float.ofModel (Float.Model.pack x.toModel.unpack) = x := by
  obtain ⟨bits, hbits⟩ := x
  have h : UnpackedFloat.pack .binary64 (UnpackedFloat.unpack .binary64 bits.toBitVec) = bits.toBitVec :=
    pack_unpack_of_valid hbits
  simp only [Float.Model.pack, Float.Model.unpack, h]

theorem ofModel_notANumber : Float.ofModel (Float.Model.pack .notANumber) = nan := by decide

theorem ofModel_zero (s : Sign) :
    Float.ofModel (Float.Model.pack (.zero s)) = 0.0 ∨ Float.ofModel (Float.Model.pack (.zero s)) = -0.0 := by
  cases s <;> decide

theorem eq_nan (h : isNaN x = true) : x = nan := by
  rw [isNaN_eq, isNaN_iff] at h
  exact eq_of_unpack h

/-- A number is `nan`, a zero, positive or negative. -/
theorem sign_cases (x : Float) : x = nan ∨ (x = 0.0 ∨ x = -0.0) ∨ 0.0 < x ∨ x < 0.0 := by
  have hzero : (0.0 : Float).toModel.unpack = .zero .positive := rfl
  rw [lt_iff, lt_iff, hzero]
  cases hx : x.toModel.unpack with
  | notANumber => exact .inl (eq_of_unpack hx)
  | zero s =>
    cases s with
    | positive => exact .inr (.inl (.inl (eq_of_unpack hx)))
    | negative => exact .inr (.inl (.inr (eq_of_unpack hx)))
  | infinity s =>
    cases s with
    | positive => exact .inr (.inr (.inl rfl))
    | negative => exact .inr (.inr (.inr rfl))
  | finite s m e hm =>
    cases s with
    | positive => exact .inr (.inr (.inl rfl))
    | negative => exact .inr (.inr (.inr rfl))

/-! ### Comparisons -/

theorem not_nan_lt (y : Float) : ¬nan < y := by
  have hnan : (nan : Float).toModel.unpack = .notANumber := rfl
  rw [lt_iff, hnan]
  cases y.toModel.unpack <;> nofun

theorem not_lt_nan (x : Float) : ¬x < nan := by
  have hnan : (nan : Float).toModel.unpack = .notANumber := rfl
  rw [lt_iff, hnan]
  cases x.toModel.unpack <;> nofun

/-- Only one of two numbers is smaller than the other. -/
theorem not_lt_of_lt (h : x < y) : ¬y < x := by
  rw [lt_iff, compare_swap, lt_iff.1 h]
  nofun

/-- What is negative is below one. -/
theorem not_one_lt (h : x < 0.0) : ¬1.0 < x := by
  have hzero : (0.0 : Float).toModel.unpack = .zero .positive := rfl
  have hone : (1.0 : Float).toModel.unpack = .finite .positive (2 ^ 52) (-52) (by decide) := rfl
  rw [lt_iff, hzero] at h
  rw [lt_iff, hone]
  cases hx : x.toModel.unpack with
  | notANumber => nofun
  | zero s => nofun
  | infinity s =>
    cases s with
    | positive =>
      rw [hx] at h
      cases h
    | negative => nofun
  | finite s m e hm =>
    cases s with
    | positive =>
      rw [hx] at h
      cases h
    | negative => nofun

/-! ### Arithmetic -/

theorem nan_add (y : Float) : nan + y = nan := by
  have h : nan + y = Float.ofModel (Float.Model.pack (.add .binary64 .notANumber y.toModel.unpack)) := rfl
  rw [h]
  cases y.toModel.unpack <;> exact ofModel_notANumber

theorem add_nan (x : Float) : x + nan = nan := by
  have h : x + nan = Float.ofModel (Float.Model.pack (.add .binary64 x.toModel.unpack .notANumber)) := rfl
  rw [h]
  cases x.toModel.unpack <;> exact ofModel_notANumber

theorem nan_mul (y : Float) : nan * y = nan := by
  have h : nan * y = Float.ofModel (Float.Model.pack (.mul .binary64 .notANumber y.toModel.unpack)) := rfl
  rw [h]
  cases y.toModel.unpack <;> exact ofModel_notANumber

theorem mul_nan (x : Float) : x * nan = nan := by
  have h : x * nan = Float.ofModel (Float.Model.pack (.mul .binary64 x.toModel.unpack .notANumber)) := rfl
  rw [h]
  cases x.toModel.unpack <;> exact ofModel_notANumber

theorem add_eq_nan (h : x = nan ∨ y = nan) : x + y = nan := by
  rcases h with rfl | rfl
  · exact nan_add y
  · exact add_nan x

theorem mul_eq_nan (h : x = nan ∨ y = nan) : x * y = nan := by
  rcases h with rfl | rfl
  · exact nan_mul y
  · exact mul_nan x

/-- The product with zero is a zero, or `nan` where the other factor is infinite or `nan`. -/
theorem mul_zero_cases (x : Float) : x * 0.0 = nan ∨ x * 0.0 = 0.0 ∨ x * 0.0 = -0.0 := by
  have h : x * 0.0 =
      Float.ofModel (Float.Model.pack (.mul .binary64 x.toModel.unpack (.zero .positive))) := rfl
  rw [h]
  cases x.toModel.unpack with
  | notANumber => exact .inl ofModel_notANumber
  | infinity s => exact .inl ofModel_notANumber
  | zero s =>
    have hmul : UnpackedFloat.mul .binary64 (.zero s) (.zero .positive) = .zero (s * .positive) := rfl
    rw [hmul]
    exact .inr (ofModel_zero _)
  | finite s m e hm =>
    have hmul : UnpackedFloat.mul .binary64 (.finite s m e hm) (.zero .positive) =
        .zero (s * .positive) := rfl
    rw [hmul]
    exact .inr (ofModel_zero _)

/-- What is negative or positive is no zero. -/
theorem unpack_ne_zero (h : x < 0.0 ∨ 0.0 < x) (s : Sign) : x.toModel.unpack ≠ .zero s := by
  have hzero : (0.0 : Float).toModel.unpack = .zero .positive := rfl
  intro hx
  rw [lt_iff, lt_iff, hx, hzero] at h
  obtain h | h := h
  · cases h
  · cases h

/-- Zero adds nothing to a number that is no zero. -/
theorem zero_add_of_unpack (h : ∀ s, y.toModel.unpack ≠ .zero s) : 0.0 + y = y := by
  have hadd : 0.0 + y =
      Float.ofModel (Float.Model.pack (.add .binary64 (.zero .positive) y.toModel.unpack)) := rfl
  have hsame : UnpackedFloat.add .binary64 (.zero .positive) y.toModel.unpack = y.toModel.unpack := by
    cases hy : y.toModel.unpack with
    | zero s => exact absurd hy (h s)
    | notANumber => rfl
    | infinity s => rfl
    | finite s m e hm => rfl
  rw [hadd, hsame, ofModel_pack_unpack]

theorem zero_add_of_neg (h : y < 0.0) : 0.0 + y = y := zero_add_of_unpack (unpack_ne_zero (.inl h))

theorem zero_add_of_pos (h : 0.0 < y) : 0.0 + y = y := zero_add_of_unpack (unpack_ne_zero (.inr h))

theorem add_zero_of_neg (h : x < 0.0) : x + 0.0 = x := by
  have hadd : x + 0.0 =
      Float.ofModel (Float.Model.pack (.add .binary64 x.toModel.unpack (.zero .positive))) := rfl
  have hsame : UnpackedFloat.add .binary64 x.toModel.unpack (.zero .positive) = x.toModel.unpack := by
    cases hx : x.toModel.unpack with
    | zero s => exact absurd hx (unpack_ne_zero (.inl h) s)
    | notANumber => rfl
    | infinity s => rfl
    | finite s m e hm => rfl
  rw [hadd, hsame, ofModel_pack_unpack]

/-- No weight makes `nan` or zero positive. -/
theorem above_mul_eq_false (w : Float) (h : x = nan ∨ x = 0.0) : above (w * x) 0.0 = false := by
  rcases h with rfl | rfl
  · rw [mul_nan]
    decide
  · rcases mul_zero_cases w with h | h | h
    · rw [h]
      decide
    · rw [h]
      decide
    · rw [h]
      decide

end Float

/-! ## §2 Rules without a positive degree -/

section Firing

variable {α : Type} [Scalar α]

/-- A rule that fires has a positive degree, whatever it fires with. -/
theorem RuleBlock.exists_degree_of_mem_fired {b : RuleBlock α} {ds : List (α × Nat)} {p : α × Nat}
    (h : p ∈ b.fired ds) : ∃ d, (d, p.2) ∈ ds ∧ above d 0.0 = true := by
  obtain ⟨hselected, hp⟩ := List.mem_filter.1 h
  obtain ⟨d, hd, hshare⟩ := Activation.exists_of_mem_select hselected
  refine ⟨d, hd, ?_⟩
  -- a share is taken of positive degrees only, and any other degree is fired with as it is
  cases habove : above d 0.0 with
  | true => rfl
  | false =>
    have hsame : b.method.share ds d = d := by
      cases b.method <;> simp [Activation.share, habove]
    have hpd : p.1 = d := hshare.trans hsame
    rw [← habove, ← hpd]
    exact hp

/-- The rule of an index in a block fires only if it has a positive degree. -/
theorem RuleBlock.exists_degree_of_fires {vs : Variables α} {b : RuleBlock α} {j : Nat}
    (h : b.Fires vs j) :
    ∃ r d, b.rules[j]? = some r ∧ isActive r = true ∧
      r.weightedDegree vs b.conjunction b.disjunction = .ok d ∧ above d 0.0 = true := by
  obtain ⟨ds, hds, before, c, after, t, hfired, -⟩ := h
  have hmem : (c, j) ∈ b.fired ds := by
    rw [hfired]
    exact List.mem_append_right _ List.mem_cons_self
  obtain ⟨d, hd, habove⟩ := exists_degree_of_mem_fired hmem
  obtain ⟨r, hr, hactive, hdegree⟩ := exists_of_mem_degrees hds hd
  exact ⟨r, d, hr, hactive, hdegree, habove⟩

/-- A rule that gets no positive degree from the variables of a cycle does not fire in it. -/
theorem Engine.not_fires_of_degree {e : Engine α} {i j : Nat} {b : RuleBlock α} {r : Rule α}
    (hb : e.blocks[i]? = some b) (hr : b.rules[j]? = some r)
    (h : ∀ t d, r.weightedDegree ((clearOutputs e.store).receive t) b.conjunction b.disjunction = .ok d →
      above d 0.0 = false) : ¬e.Fires i j := by
  rintro ⟨p, b', -, hb', -, hfires⟩
  cases hb.symm.trans hb'
  obtain ⟨r', d, hr', -, hd, habove⟩ := RuleBlock.exists_degree_of_fires hfires
  cases hr.symm.trans hr'
  rw [h p.1 d hd] at habove
  cases habove

end Firing

end FuzzyInference
