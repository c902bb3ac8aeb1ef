import FuzzyInference.Scalar.Tolerance
import Mathlib

/-!
# Exact scalars

The engine runs on floating-point numbers, where no sum is associative. Many of its laws are laws of exact
arithmetic all the same, and hold on the machine up to rounding. This module gives the scalars over which
they are stated: the real numbers, with the two infinities and `nan`.

Exact scalars follow the rules of floating-point numbers wherever these do not round: `nan` spreads and
differs from itself, an infinity absorbs what is finite, and a function has its limit at an infinity and
`nan` outside its domain. They have one zero, which counts as positive where a sign matters.

The plan of this module:

* exact scalars, their arithmetic and order, and the functions on them;
* what the operations do on finite scalars, which is what they do on real numbers;
* tolerant comparison and checked operations on finite scalars.

## Main statements

* `Exact.add_right_comm`: the summands of a sum can be exchanged, also infinite ones
* `Exact.near_finite`, `Exact.above_finite`: tolerant comparison, on real numbers
* `Exact.divide_finite`, `Exact.apply_sqrt_finite`: operations that are not refused
-/

namespace FuzzyInference

/-- The real numbers, the two infinities and `nan`. -/
inductive Exact
  | nan
  | posInf
  | negInf
  | finite (x : ℝ)

namespace Exact

noncomputable section

/-! ## §1 Arithmetic and order -/

/-- The infinity on the side of a sign, and `nan` where there is no side. -/
def toward : SignType → Exact
  | .pos => posInf
  | .neg => negInf
  | .zero => nan

/-- The sign of a scalar that is not `nan`. -/
def sign : Exact → SignType
  | nan => 0
  | posInf => 1
  | negInf => -1
  | finite x => SignType.sign x

protected def neg : Exact → Exact
  | nan => nan
  | posInf => negInf
  | negInf => posInf
  | finite x => finite (-x)

protected def add : Exact → Exact → Exact
  | finite x, finite y => finite (x + y)
  | nan, _ | _, nan | posInf, negInf | negInf, posInf => nan
  | posInf, _ | _, posInf => posInf
  | negInf, _ | _, negInf => negInf

/-- The product. An infinity times zero is `nan`. -/
protected def mul : Exact → Exact → Exact
  | finite x, finite y => finite (x * y)
  | nan, _ | _, nan => nan
  | a, b => toward (a.sign * b.sign)

/-- The quotient. Zero over zero and an infinity over an infinity are `nan`. -/
protected def div : Exact → Exact → Exact
  | finite x, finite y => if y = 0 then toward (SignType.sign x) else finite (x / y)
  | nan, _ | _, nan => nan
  | finite _, _ => finite 0
  | a, finite y => if y < 0 then a.neg else a
  | _, _ => nan

/-- The order of the extended real numbers. No scalar is below or above `nan`. -/
def Less : Exact → Exact → Prop
  | finite x, finite y => x < y
  | negInf, finite _ | negInf, posInf | finite _, posInf => True
  | _, _ => False

/-- The same scalar, and not `nan`. -/
def Same (a b : Exact) : Prop := a = b ∧ a ≠ nan

instance : DecidableRel Less := fun _ _ => Classical.propDecidable _

instance : DecidableRel Same := fun _ _ => Classical.propDecidable _

def abs : Exact → Exact
  | nan => nan
  | posInf | negInf => posInf
  | finite x => finite |x|

/-- Takes a function of real numbers over to the finite scalars. -/
def onFinite (f : ℝ → ℝ) : Exact → Exact
  | finite x => finite (f x)
  | a => a

/-! ## §2 Functions -/

/-- The real functions, with an infinity at a pole and `nan` outside the domain. -/
def ofReal (f : Elementary) (x : ℝ) : Exact :=
  match f with
  | .acos => if |x| ≤ 1 then finite (Real.arccos x) else nan
  | .asin => if |x| ≤ 1 then finite (Real.arcsin x) else nan
  | .atan => finite (Real.arctan x)
  | .acosh => if 1 ≤ x then finite (Real.arcosh x) else nan
  | .asinh => finite (Real.arsinh x)
  | .atanh => if |x| < 1 then finite (Real.artanh x) else if |x| = 1 then toward (SignType.sign x) else nan
  | .cos => finite (Real.cos x)
  | .cosh => finite (Real.cosh x)
  | .exp => finite (Real.exp x)
  | .expm1 => finite (Real.exp x - 1)
  | .log => if 0 < x then finite (Real.log x) else if x = 0 then negInf else nan
  | .log10 => if 0 < x then finite (Real.logb 10 x) else if x = 0 then negInf else nan
  | .log1p => if -1 < x then finite (Real.log (1 + x)) else if x = -1 then negInf else nan
  | .sin => finite (Real.sin x)
  | .sinh => finite (Real.sinh x)
  | .sqrt => if 0 ≤ x then finite (Real.sqrt x) else nan
  | .tan => if Real.cos x = 0 then nan else finite (Real.tan x)
  | .tanh => finite (Real.tanh x)

/-- The limits of the real functions at positive infinity. -/
def atPosInf : Elementary → Exact
  | .atan => finite (Real.pi / 2)
  | .tanh => finite 1
  | .acosh | .asinh | .cosh | .exp | .expm1 | .log | .log10 | .log1p | .sinh | .sqrt => posInf
  | .acos | .asin | .atanh | .cos | .sin | .tan => nan

/-- The limits of the real functions at negative infinity. -/
def atNegInf : Elementary → Exact
  | .atan => finite (-(Real.pi / 2))
  | .exp => finite 0
  | .expm1 | .tanh => finite (-1)
  | .cosh => posInf
  | .asinh | .sinh => negInf
  | .acos | .asin | .acosh | .atanh | .cos | .log | .log10 | .log1p | .sin | .sqrt | .tan => nan

def elementary (f : Elementary) : Exact → Exact
  | nan => nan
  | posInf => atPosInf f
  | negInf => atNegInf f
  | finite x => ofReal f x

/-- A power of real numbers. Zero has a pole under a negative exponent, and a negative number has powers
under whole exponents only. -/
def powReal (x y : ℝ) : Exact :=
  if 0 < x then finite (x ^ y)
  else if x = 0 then (if 0 < y then finite 0 else if y = 0 then finite 1 else posInf)
  else if (⌊y⌋ : ℝ) = y then finite (x ^ ⌊y⌋)
  else nan

/-- A power. Everything to the power of zero is one, and so is every power of one, even where `nan` is the
other argument. -/
def pow : Exact → Exact → Exact
  | finite x, finite y => powReal x y
  | nan, finite y => if y = 0 then finite 1 else nan
  | finite x, nan => if x = 1 then finite 1 else nan
  | nan, _ | _, nan => nan
  | posInf, finite y => if y = 0 then finite 1 else if 0 < y then posInf else finite 0
  | negInf, finite y =>
    if y = 0 then finite 1
    else if y < 0 then finite 0
    else if (⌊y⌋ : ℝ) = y ∧ Odd ⌊y⌋ then negInf
    else posInf
  | finite x, posInf => if |x| = 1 then finite 1 else if 1 < |x| then posInf else finite 0
  | finite x, negInf => if |x| = 1 then finite 1 else if 1 < |x| then finite 0 else posInf
  | _, posInf => posInf
  | _, negInf => finite 0

/-- The quotient truncated towards zero, as a whole number. -/
def truncate (x : ℝ) : ℤ := if x < 0 then ⌈x⌉ else ⌊x⌋

/-- What the truncated quotient leaves. -/
def rem : Exact → Exact → Exact
  | finite x, finite y => if y = 0 then nan else finite (x - y * truncate (x / y))
  | finite x, posInf | finite x, negInf => finite x
  | _, _ => nan

/-- The angle of a point with the given ordinate and abscissa; an infinite coordinate outweighs a finite
one, and two infinite ones weigh the same. -/
def arctan2 : Exact → Exact → Exact
  | finite y, finite x => finite (Complex.arg ⟨x, y⟩)
  | nan, _ | _, nan => nan
  | finite _, posInf => finite 0
  | finite y, negInf => finite (if y < 0 then -Real.pi else Real.pi)
  | posInf, finite _ => finite (Real.pi / 2)
  | negInf, finite _ => finite (-(Real.pi / 2))
  | posInf, posInf => finite (Real.pi / 4)
  | posInf, negInf => finite (3 * Real.pi / 4)
  | negInf, posInf => finite (-(Real.pi / 4))
  | negInf, negInf => finite (-(3 * Real.pi / 4))

instance : Scalar Exact where
  add := Exact.add
  sub a b := a.add b.neg
  mul := Exact.mul
  div := Exact.div
  neg := Exact.neg
  beq a b := decide (Same a b)
  lt := Less
  le a b := Less a b ∨ Same a b
  ofScientific m s e := finite (OfScientific.ofScientific m s e)
  decidableLT a b := inferInstanceAs (Decidable (Less a b))
  decidableLE a b := inferInstanceAs (Decidable (Less a b ∨ Same a b))
  nan := nan
  inf := posInf
  pi := finite Real.pi
  euler := finite (Real.exp 1)
  abs := abs
  floor := onFinite fun x => ⌊x⌋
  ceil := onFinite fun x => ⌈x⌉
  elementary := elementary
  pow := pow
  rem := rem
  arctan2 := arctan2
  sampleCount n := .ok (finite n)

/-! ## §3 Finite scalars -/

@[simp] theorem finite_inj {x y : ℝ} : finite x = finite y ↔ x = y :=
  ⟨fun h => Exact.finite.inj h, fun h => h ▸ rfl⟩

@[simp] theorem finite_add (x y : ℝ) : finite x + finite y = finite (x + y) := rfl

@[simp] theorem finite_sub (x y : ℝ) : finite x - finite y = finite (x - y) := rfl

@[simp] theorem finite_mul (x y : ℝ) : finite x * finite y = finite (x * y) := rfl

@[simp] theorem finite_div {x y : ℝ} (h : y ≠ 0) : finite x / finite y = finite (x / y) := by
  change Exact.div (finite x) (finite y) = _
  rw [Exact.div, if_neg h]

@[simp] theorem finite_lt_finite {x y : ℝ} : finite x < finite y ↔ x < y := Iff.rfl

@[simp] theorem finite_le_finite {x y : ℝ} : finite x ≤ finite y ↔ x ≤ y := by
  change (x < y ∨ (finite x = finite y ∧ finite x ≠ nan)) ↔ x ≤ y
  rw [finite_inj, le_iff_lt_or_eq]
  simp

@[simp] theorem finite_beq (x y : ℝ) : (finite x == finite y) = decide (x = y) := by
  change decide (Same (finite x) (finite y)) = decide (x = y)
  simp [Same]

@[simp] theorem abs_finite (x : ℝ) : Scalar.abs (finite x) = finite |x| := rfl

@[simp] theorem literal_zero : (0.0 : Exact) = finite 0 := by
  change finite (0.0 : ℝ) = finite 0
  norm_num

@[simp] theorem literal_one : (1.0 : Exact) = finite 1 := by
  change finite (1.0 : ℝ) = finite 1
  norm_num

@[simp] theorem literal_two : (2.0 : Exact) = finite 2 := by
  change finite (2.0 : ℝ) = finite 2
  norm_num

/-- One half, as a real number. -/
def half : ℝ := 1 / 2

theorem half_eq : half = 1 / 2 := rfl

@[simp] theorem literal_half : (0.5 : Exact) = finite half := by
  change finite (0.5 : ℝ) = finite half
  rw [half_eq]
  norm_num

@[simp] theorem sampleCount_eq (n : ℤ) : (Scalar.sampleCount n : Except Fault Exact) = .ok (finite n) := rfl

/-! ### Classes of scalars -/

open Scalar

@[simp] theorem isNaN_finite (x : ℝ) : isNaN (finite x) = false := by
  simp [isNaN, bne]

@[simp] theorem isInf_finite (x : ℝ) : isInf (finite x) = false := by
  have hpos : (finite x == (posInf : Exact)) = false := by
    change decide (Same (finite x) posInf) = false
    simp [Same]
  have hneg : (finite x == (negInf : Exact)) = false := by
    change decide (Same (finite x) negInf) = false
    simp [Same]
  change ((finite x == (posInf : Exact)) || (finite x == (negInf : Exact))) = false
  rw [hpos, hneg, Bool.or_false]

/-- Real numbers are no infinities. -/
@[simp] theorem finite_beq_inf (x : ℝ) : (finite x == (inf : Exact)) = false ∧ (finite x == -(inf : Exact)) = false :=
  Bool.or_eq_false_iff.1 (isInf_finite x)

theorem exists_of_isFinite {a : Exact} (h : isFinite a = true) : ∃ x, a = finite x := by
  cases a with
  | finite x => exact ⟨x, rfl⟩
  | nan =>
    have hnan : isNaN (nan : Exact) = true := by
      change (!decide (Same nan nan)) = true
      simp [Same]
    simp [isFinite, hnan] at h
  | posInf =>
    have hinf : ((posInf : Exact) == (posInf : Exact)) = true := by
      change decide (Same posInf posInf) = true
      simp [Same]
    have hinf' : isInf (posInf : Exact) = true := Bool.or_eq_true_iff.2 (.inl hinf)
    simp [isFinite, hinf'] at h
  | negInf =>
    have hinf : ((negInf : Exact) == (negInf : Exact)) = true := by
      change decide (Same negInf negInf) = true
      simp [Same]
    have hinf' : isInf (negInf : Exact) = true := Bool.or_eq_true_iff.2 (.inr hinf)
    simp [isFinite, hinf'] at h

@[simp] theorem least_finite (x y : ℝ) : least (finite x) (finite y) = finite (min x y) := by
  unfold least
  by_cases h : y < x
  · rw [if_pos (finite_lt_finite.2 h), min_eq_right h.le]
  · rw [if_neg (mt finite_lt_finite.1 h), min_eq_left (not_lt.1 h)]

@[simp] theorem greatest_finite (x y : ℝ) : greatest (finite x) (finite y) = finite (max x y) := by
  unfold greatest
  by_cases h : x < y
  · rw [if_pos (finite_lt_finite.2 h), max_eq_right h.le]
  · rw [if_neg (mt finite_lt_finite.1 h), max_eq_left (not_lt.1 h)]

/-! ### Sums -/

/-- The summands of a sum can be exchanged, also where some of them are infinite or `nan`. -/
theorem add_right_comm (a b c : Exact) : a + b + c = a + c + b := by
  change (a.add b).add c = (a.add c).add b
  cases a <;> cases b <;> cases c <;> simp [Exact.add]
  ring

/-! ## §4 Tolerance -/

/-- The tolerance, as a real number. -/
def epsilon : ℝ := 1e-9

theorem epsilon_pos : 0 < epsilon := by
  norm_num [epsilon]

theorem epsilon_lt_half : epsilon < 1 / 2 := by
  norm_num [epsilon]

@[simp] theorem tolerance_eq : (tolerance : Exact) = finite epsilon := rfl

/-- Real numbers are near when they are closer than the tolerance. -/
@[simp] theorem near_finite (x y : ℝ) : near (finite x) (finite y) = decide (|x - y| < epsilon) := by
  -- a number is near itself because the tolerance is positive
  have hsame : x = y → |x - y| < epsilon := by
    rintro rfl
    simpa using epsilon_pos
  unfold near nearWithin
  simp only [finite_beq, isNaN_finite, Bool.false_and, Bool.or_false, finite_sub, abs_finite, tolerance_eq,
    finite_lt_finite]
  rw [← Bool.decide_or, decide_eq_decide]
  exact ⟨fun h => h.elim hsame id, .inr⟩

/-- A real number is above another one when it exceeds it by the tolerance at least. -/
@[simp] theorem above_finite (x y : ℝ) : above (finite x) (finite y) = decide (y + epsilon ≤ x) := by
  have hnear := near_finite x y
  unfold near at hnear
  unfold above aboveWithin
  rw [hnear, ← decide_not, ← Bool.decide_and, decide_eq_decide, finite_lt_finite, not_lt]
  constructor
  · rintro ⟨hfar, hlt⟩
    rw [abs_of_pos (sub_pos.2 hlt)] at hfar
    linarith
  · intro h
    have hlt : y < x := by linarith [epsilon_pos]
    rw [abs_of_pos (sub_pos.2 hlt)]
    exact ⟨by linarith, hlt⟩

/-- A real number is below another one when it falls short of it by the tolerance at least. -/
@[simp] theorem below_finite (x y : ℝ) : below (finite x) (finite y) = decide (x + epsilon ≤ y) := by
  have hnear := near_finite x y
  unfold near at hnear
  unfold below belowWithin
  rw [hnear, ← decide_not, ← Bool.decide_and, decide_eq_decide, finite_lt_finite, not_lt]
  constructor
  · rintro ⟨hfar, hlt⟩
    rw [abs_of_neg (sub_neg.2 hlt)] at hfar
    linarith
  · intro h
    have hlt : x < y := by linarith [epsilon_pos]
    rw [abs_of_neg (sub_neg.2 hlt)]
    exact ⟨by linarith, hlt⟩

/-- A real number is at most another one when it does not exceed it by the tolerance. -/
@[simp] theorem atMost_finite (x y : ℝ) : atMost (finite x) (finite y) = decide (x < y + epsilon) := by
  have hnear := near_finite x y
  unfold near at hnear
  unfold atMost atMostWithin
  rw [hnear, ← Bool.decide_or, decide_eq_decide, finite_lt_finite, abs_lt]
  constructor
  · rintro (⟨-, hlt⟩ | hlt)
    · linarith
    · linarith [epsilon_pos]
  · intro h
    by_cases hlt : x < y
    · exact .inr hlt
    · exact .inl ⟨by linarith [epsilon_pos], by linarith⟩

/-- A real number is at least another one when it does not fall short of it by the tolerance. -/
@[simp] theorem atLeast_finite (x y : ℝ) : atLeast (finite x) (finite y) = decide (y < x + epsilon) := by
  have hnear := near_finite x y
  unfold near at hnear
  unfold atLeast atLeastWithin
  rw [hnear, ← Bool.decide_or, decide_eq_decide, finite_lt_finite, abs_lt]
  constructor
  · rintro (⟨hlt, -⟩ | hlt)
    · linarith
    · linarith [epsilon_pos]
  · intro h
    by_cases hlt : y < x
    · exact .inr hlt
    · exact .inl ⟨by linarith, by linarith [epsilon_pos]⟩

/-- Nothing is below a scalar that is at most as great. -/
theorem below_eq_false {a : Exact} {x y : ℝ} (h : a ≤ finite y) (hxy : y ≤ x) : below (finite x) a = false := by
  have hnot : ¬finite x < a := by
    intro hlt
    cases a with
    | finite z => exact absurd hlt (not_lt.2 ((finite_le_finite.1 h).trans hxy))
    | posInf =>
      obtain hless | ⟨hsame, -⟩ := h
      · exact hless
      · cases hsame
    | nan => exact hlt
    | negInf => exact hlt
  unfold below belowWithin
  rw [decide_eq_false hnot, Bool.and_false]

/-- Nothing is above a scalar that is at least as great. -/
theorem above_eq_false {a : Exact} {x y : ℝ} (h : finite y ≤ a) (hxy : x ≤ y) : above (finite x) a = false := by
  have hnot : ¬a < finite x := by
    intro hlt
    cases a with
    | finite z => exact absurd hlt (not_lt.2 (hxy.trans (finite_le_finite.1 h)))
    | negInf =>
      obtain hless | ⟨hsame, -⟩ := h
      · exact hless
      · cases hsame
    | nan => exact hlt
    | posInf => exact hlt
  unfold above aboveWithin
  rw [decide_eq_false hnot, Bool.and_false]

/-! ## §5 Checked operations -/

@[simp] theorem divide_finite {x y : ℝ} (h : y ≠ 0) : divide (finite x) (finite y) = .ok (finite (x / y)) := by
  unfold divide
  rw [literal_zero, finite_beq, finite_div h, if_neg (by simpa using h)]

/-- A function is not refused where it has a real value. -/
theorem apply_finite {f : Elementary} {a : Exact} {y : ℝ} (h : Scalar.elementary f a = finite y) :
    Scalar.apply f a = .ok (finite y) := by
  unfold Scalar.apply
  simp only [h, isNaN_finite, isInf_finite, Bool.false_and, Bool.false_eq_true, if_false]

@[simp] theorem apply_sqrt_finite {x : ℝ} (h : 0 ≤ x) :
    Scalar.apply .sqrt (finite x) = .ok (finite (Real.sqrt x)) :=
  apply_finite (if_pos h)

@[simp] theorem apply_log_finite {x : ℝ} (h : 0 < x) :
    Scalar.apply .log (finite x) = .ok (finite (Real.log x)) :=
  apply_finite (if_pos h)

@[simp] theorem apply_exp_finite (x : ℝ) : Scalar.apply .exp (finite x) = .ok (finite (Real.exp x)) :=
  apply_finite rfl

@[simp] theorem square_finite (x : ℝ) : square (finite x) = .ok (finite (x ^ 2)) := by
  unfold square
  simp only [finite_mul, isInf_finite, Bool.false_and, Bool.false_eq_true, if_false, pow_two]

end

end Exact

end FuzzyInference
