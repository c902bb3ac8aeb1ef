import FuzzyInference.Scalar.Floating

/-!
# Values in a range

A value that was brought into a range is in the range, and bringing it there once more changes nothing. For
floating-point numbers this needs a range whose ends are in order, which no range with an end that is `nan`
is.

The plan of this module:

* comparisons of floating-point numbers;
* values brought into a range.

## Main statements

* `Scalar.isNaN_bound`, `Scalar.bound_bound`
-/

namespace FuzzyInference

open Float.Model

/-! ## §1 Comparisons -/

theorem compare_magnitudes_swap (m n : Nat) (e f : Int) :
    (compare f e).then (compare n m) = ((compare e f).then (compare m n)).swap := by
  rw [Ordering.swap_then, Nat.compare_swap, Int.compare_swap]

/-- The comparison of two numbers the other way round. -/
theorem compare_swap (a b : UnpackedFloat) : b.compare a = (a.compare b).map Ordering.swap := by
  cases a with
  | notANumber => cases b <;> rfl
  | infinity s =>
    cases b with
    | notANumber => rfl
    | infinity t => cases s <;> cases t <;> rfl
    | zero t => cases s <;> rfl
    | finite t n f hn => cases s <;> rfl
  | zero s =>
    cases b with
    | notANumber => rfl
    | infinity t => cases t <;> rfl
    | zero t => rfl
    | finite t n f hn => cases t <;> rfl
  | finite s m e hm =>
    cases b with
    | notANumber => rfl
    | infinity t => cases t <;> rfl
    | zero t => cases s <;> rfl
    | finite t n f hn =>
      have hmagnitudes := compare_magnitudes_swap m n e f
      cases s with
      | positive =>
        cases t with
        | positive => exact congrArg some hmagnitudes
        | negative => rfl
      | negative =>
        cases t with
        | positive => rfl
        -- the greater magnitude is the smaller of two negative numbers
        | negative => exact congrArg (fun o => some (Ordering.swap o)) hmagnitudes

/-- What compares to anything at all compares to itself as equal. -/
theorem compare_self {a b : UnpackedFloat} {o : Ordering} (h : a.compare b = some o) :
    a.compare a = some .eq := by
  cases a with
  | notANumber => cases b <;> cases h
  | infinity s => cases s <;> rfl
  | zero s => rfl
  | finite s m e hm =>
    have hmagnitudes : (compare e e).then (compare m m) = .eq := by simp
    cases s with
    | positive => exact congrArg some hmagnitudes
    | negative => exact congrArg (fun o => some (Ordering.swap o)) hmagnitudes

namespace Float

variable {x y : Float}

theorem lt_iff : x < y ↔ x.toModel.unpack.compare y.toModel.unpack = some .lt := by
  have hmodel : x < y ↔ x.toModel < y.toModel := decide_eq_true_iff
  rw [hmodel]
  exact beq_iff_eq

theorem exists_of_le (h : x ≤ y) :
    ∃ o, x.toModel.unpack.compare y.toModel.unpack = some o ∧ o ≠ .gt := by
  have hmodel : x.toModel ≤ y.toModel := decide_eq_true_iff.1 h
  obtain ⟨o, ho, hle⟩ := (Option.any_eq_true _ _).1 hmodel
  refine ⟨o, ho, ?_⟩
  rintro rfl
  cases hle

theorem not_lt_self (x : Float) : ¬x < x := by
  intro h
  have hlt := lt_iff.1 h
  rw [compare_self hlt] at hlt
  cases hlt

theorem not_lt_of_le (h : x ≤ y) : ¬y < x := by
  obtain ⟨o, ho, hgt⟩ := exists_of_le h
  intro hlt
  rw [lt_iff, compare_swap, ho] at hlt
  cases o with
  | lt => cases hlt
  | eq => cases hlt
  | gt => exact hgt rfl

theorem isNaN_eq_false_of_compare {o : Ordering} (h : x.toModel.unpack.compare y.toModel.unpack = some o) :
    Scalar.isNaN x = false := by
  have hself : (x == x) = true := by
    show (x.toModel.unpack.compare x.toModel.unpack == some .eq) = true
    rw [compare_self h]
    rfl
  rw [Scalar.isNaN, bne, hself]
  rfl

/-- The ends of a range that are in order are numbers. -/
theorem isNaN_eq_false_of_le (h : x ≤ y) : Scalar.isNaN x = false ∧ Scalar.isNaN y = false := by
  obtain ⟨o, ho, -⟩ := exists_of_le h
  have hswap : y.toModel.unpack.compare x.toModel.unpack = some o.swap := by rw [compare_swap, ho]; rfl
  exact ⟨isNaN_eq_false_of_compare ho, isNaN_eq_false_of_compare hswap⟩

end Float

/-! ## §2 Ranges -/

namespace Scalar

variable {x minimum maximum : Float}

/-- A number that is brought into a range is a number. -/
theorem isNaN_bound (h : minimum ≤ maximum) (hx : isNaN x = false) :
    isNaN (bound x minimum maximum) = false := by
  obtain ⟨hmin, hmax⟩ := Float.isNaN_eq_false_of_le h
  unfold bound
  split
  · exact hmax
  · split
    · exact hmin
    · exact hx

/-- A value that is in the range stays where it is. -/
theorem bound_bound (h : minimum ≤ maximum) :
    bound (bound x minimum maximum) minimum maximum = bound x minimum maximum := by
  have hmax := Float.not_lt_self maximum
  have hmin := Float.not_lt_self minimum
  have hle := Float.not_lt_of_le h
  by_cases habove : maximum < x
  · simp [bound, habove, hmax, hle]
  · by_cases hbelow : x < minimum
    · simp [bound, habove, hbelow, hle, hmin]
    · simp [bound, habove, hbelow]

end Scalar

end FuzzyInference
