import FuzzyInference.Proofs.Ranking
import FuzzyInference.Proofs.Silence
import FuzzyInference.Proofs.Value

/-!
# The sign of zero

A text does not show the sign of a zero, so what is written and read again may differ from what it was by such a sign,
and by nothing else. Arithmetic keeps it so. Sums, differences and products of numbers that are equal up to the sign of
zero are equal up to the sign of zero; comparisons do not see the sign at all; a quotient would tell the signs apart by
its infinities, but a divisor of zero is refused; and cosine, the exponential function and powers, of which the sign of
an argument or an exponent might be asked, are one at both zeros.

The plan of this module:

* numbers that are alike;
* arithmetic;
* comparisons;
* computations that may be refused.

## Main statements

* `Float.Alike.eq_or_zeros`: numbers that are alike are the same, except for the two zeros
* `Float.Alike.add`, `Float.Alike.sub`, `Float.Alike.mul`: arithmetic
* `Float.Alike.near_eq`: tolerant comparison
* `SameResult.bind`: computations in sequence
-/

namespace FuzzyInference

open Scalar

namespace Float

open Float.Model UnpackedFloat

variable {x y x' y' : Float}

/-! ## §1 Numbers that are alike -/

/-- Equal numbers, or both `nan`. -/
def Alike (x y : Float) : Prop := (x == y) = true ∨ isNaN x = true ∧ isNaN y = true

theorem eq_of_compare_magnitudes {m n : Nat} {e f : Int} (h : (compare e f).then (compare m n) = .eq) :
    e = f ∧ m = n := by
  rw [Ordering.then_eq_eq, compare_eq_iff_eq, compare_eq_iff_eq] at h
  exact h

/-- Numbers that compare as equal are the same, except for the two zeros. -/
theorem eq_or_zeros_of_compare {a b : UnpackedFloat} (h : a.compare b = some .eq) :
    a = b ∨ (∃ s, a = .zero s) ∧ ∃ s, b = .zero s := by
  cases a with
  | notANumber => cases h
  | infinity s =>
    cases b with
    | notANumber => cases h
    | infinity t => cases s <;> cases t <;> first | exact .inl rfl | cases h
    | zero t => cases s <;> cases h
    | finite t n f hn => cases s <;> cases h
  | zero s =>
    cases b with
    | notANumber => cases h
    | infinity t => cases t <;> cases h
    | zero t => exact .inr ⟨⟨s, rfl⟩, ⟨t, rfl⟩⟩
    | finite t n f hn => cases t <;> cases h
  | finite s m e hm =>
    cases b with
    | notANumber => cases h
    | infinity t => cases s <;> cases t <;> cases h
    | zero t => cases s <;> cases h
    | finite t n f hn =>
      cases s with
      | positive =>
        cases t with
        | positive =>
          obtain ⟨rfl, rfl⟩ := eq_of_compare_magnitudes (Option.some.inj h)
          exact .inl rfl
        | negative => cases h
      | negative =>
        cases t with
        | positive => cases h
        | negative =>
          obtain ⟨rfl, rfl⟩ := eq_of_compare_magnitudes (Ordering.swap_eq_eq.1 (Option.some.inj h))
          exact .inl rfl

theorem eq_zero_of_unpack {s : Sign} (h : x.toModel.unpack = .zero s) : x = 0.0 ∨ x = -0.0 := by
  cases s with
  | positive => exact .inl (eq_of_unpack h)
  | negative => exact .inr (eq_of_unpack h)

/-- Numbers that are alike are the same, except for the two zeros. -/
theorem Alike.eq_or_zeros (h : Alike x y) : x = y ∨ (x = 0.0 ∨ x = -0.0) ∧ (y = 0.0 ∨ y = -0.0) := by
  rcases h with hbeq | ⟨hx, hy⟩
  · have hcompare : (x.toModel.unpack.compare y.toModel.unpack == some .eq) = true := hbeq
    rcases eq_or_zeros_of_compare (beq_iff_eq.1 hcompare) with heq | ⟨⟨s, hs⟩, ⟨t, ht⟩⟩
    · exact .inl (eq_of_unpack heq)
    · exact .inr ⟨eq_zero_of_unpack hs, eq_zero_of_unpack ht⟩
  · exact .inl ((eq_nan hx).trans (eq_nan hy).symm)

theorem Alike.refl (x : Float) : Alike x x := by
  cases h : Scalar.isNaN x with
  | true => exact .inr ⟨h, h⟩
  | false =>
    rw [Scalar.isNaN, bne, Bool.not_eq_false'] at h
    exact .inl h

/-- Unpacked numbers that are the same, or two zeros. -/
inductive SameButZeros : UnpackedFloat → UnpackedFloat → Prop
  | same (u : UnpackedFloat) : SameButZeros u u
  | zeros (s t : Sign) : SameButZeros (.zero s) (.zero t)

theorem alike_iff_unpack : Alike x y ↔ SameButZeros x.toModel.unpack y.toModel.unpack := by
  constructor
  · intro h
    rcases h.eq_or_zeros with rfl | ⟨rfl | rfl, rfl | rfl⟩
    · exact .same _
    all_goals exact .zeros _ _
  · intro h
    generalize hu : x.toModel.unpack = u at h
    generalize hv : y.toModel.unpack = v at h
    cases h with
    | same u => exact eq_of_unpack (hu.trans hv.symm) ▸ .refl x
    | zeros s t =>
      left
      change (x.toModel.unpack.compare y.toModel.unpack == some .eq) = true
      rw [hu, hv]
      rfl

theorem Alike.symm (h : Alike x y) : Alike y x := by
  rw [alike_iff_unpack] at h ⊢
  generalize x.toModel.unpack = u at h
  generalize y.toModel.unpack = v at h
  cases h with
  | same u => exact .same u
  | zeros s t => exact .zeros t s

/-! ## §2 Arithmetic -/

namespace SameButZeros

variable {u u' v v' : UnpackedFloat}

theorem pack (h : SameButZeros u v) : SameButZeros (Float.Model.pack u).unpack (Float.Model.pack v).unpack := by
  cases h with
  | same u => exact .same _
  | zeros s t => cases s <;> cases t <;> exact .zeros _ _

theorem neg (h : SameButZeros u v) : SameButZeros u.neg v.neg := by
  cases h with
  | same u => exact .same _
  | zeros s t => exact .zeros _ _

/-- The magnitude of a zero has no sign to differ in. -/
theorem abs_eq (h : SameButZeros u v) : u.abs = v.abs := by
  cases h with
  | same u => rfl
  | zeros s t => rfl

theorem trans {w : UnpackedFloat} (huv : SameButZeros u v) (hvw : SameButZeros v w) : SameButZeros u w := by
  cases huv with
  | same u => exact hvw
  | zeros s t =>
    cases hvw with
    | same v => exact .zeros s t
    | zeros t r => exact .zeros s r

/-- An operation in which the sign of a zero at either side makes at most the difference of two zeros. -/
theorem congr (op : UnpackedFloat → UnpackedFloat → UnpackedFloat)
    (hleft : ∀ s t v, SameButZeros (op (.zero s) v) (op (.zero t) v))
    (hright : ∀ s t u, SameButZeros (op u (.zero s)) (op u (.zero t)))
    (hu : SameButZeros u u') (hv : SameButZeros v v') : SameButZeros (op u v) (op u' v') := by
  -- one side is exchanged after the other
  have hfirst : SameButZeros (op u v) (op u' v) := by
    cases hu with
    | same u => exact .same _
    | zeros s t => exact hleft s t v
  refine hfirst.trans ?_
  cases hv with
  | same v => exact .same _
  | zeros s t => exact hright s t u'

theorem add (hu : SameButZeros u u') (hv : SameButZeros v v') :
    SameButZeros (u.add .binary64 v) (u'.add .binary64 v') := by
  refine congr (UnpackedFloat.add .binary64) (fun s t w => ?_) (fun s t w => ?_) hu hv
  all_goals
    cases w with
    | zero r => cases r <;> cases s <;> cases t <;> exact .zeros _ _
    | _ => exact .same _

theorem sub (hu : SameButZeros u u') (hv : SameButZeros v v') :
    SameButZeros (u.sub .binary64 v) (u'.sub .binary64 v') := by
  refine congr (UnpackedFloat.sub .binary64) (fun s t w => ?_) (fun s t w => ?_) hu hv
  all_goals
    cases w with
    | zero r => cases r <;> cases s <;> cases t <;> exact .zeros _ _
    | _ => exact .same _

theorem mul (hu : SameButZeros u u') (hv : SameButZeros v v') :
    SameButZeros (u.mul .binary64 v) (u'.mul .binary64 v') := by
  refine congr (UnpackedFloat.mul .binary64) (fun s t w => ?_) (fun s t w => ?_) hu hv
  all_goals
    cases w with
    | notANumber => exact .same _
    | infinity r => exact .same _
    | _ => exact .zeros _ _

theorem div (hu : SameButZeros u u') (v : UnpackedFloat) :
    SameButZeros (u.div .binary64 v) (u'.div .binary64 v) := by
  cases hu with
  | same u => exact .same _
  | zeros s t => cases v <;> first | exact .same _ | exact .zeros _ _

theorem compare_eq (hu : SameButZeros u u') (hv : SameButZeros v v') : u.compare v = u'.compare v' := by
  cases hu with
  | same u =>
    cases hv with
    | same v => rfl
    | zeros s t =>
      cases u with
      | notANumber => rfl
      | zero r => rfl
      | _ r => cases r <;> rfl
  | zeros s t =>
    cases hv with
    | same v =>
      cases v with
      | notANumber => rfl
      | zero r => rfl
      | _ r => cases r <;> rfl
    | zeros s' t' => rfl

end SameButZeros

namespace Alike

variable {a b a' b' eps : Float}

theorem add (hx : Alike x x') (hy : Alike y y') : Alike (x + y) (x' + y') := by
  rw [alike_iff_unpack] at hx hy ⊢
  exact (hx.add hy).pack

theorem sub (hx : Alike x x') (hy : Alike y y') : Alike (x - y) (x' - y') := by
  rw [alike_iff_unpack] at hx hy ⊢
  exact (hx.sub hy).pack

theorem mul (hx : Alike x x') (hy : Alike y y') : Alike (x * y) (x' * y') := by
  rw [alike_iff_unpack] at hx hy ⊢
  exact (hx.mul hy).pack

theorem div (hx : Alike x x') (y : Float) : Alike (x / y) (x' / y) := by
  rw [alike_iff_unpack] at hx ⊢
  exact (hx.div _).pack

theorem neg (hx : Alike x x') : Alike (-x) (-x') := by
  rw [alike_iff_unpack] at hx ⊢
  exact hx.neg.pack

theorem abs_eq (hx : Alike x x') : Scalar.abs x = Scalar.abs x' := by
  have habs : x.toModel.unpack.abs = x'.toModel.unpack.abs := (alike_iff_unpack.1 hx).abs_eq
  exact congrArg (fun u => Float.ofModel (Float.Model.pack u)) habs

theorem abs (hx : Alike x x') : Alike (Scalar.abs x) (Scalar.abs x') := hx.abs_eq ▸ .refl _

/-! ## §3 Comparisons -/

theorem lt_iff (hx : Alike x x') (hy : Alike y y') : x < y ↔ x' < y' := by
  rw [Float.lt_iff, Float.lt_iff, (alike_iff_unpack.1 hx).compare_eq (alike_iff_unpack.1 hy)]

theorem beq_eq (hx : Alike x x') (hy : Alike y y') : (x == y) = (x' == y') := by
  change (x.toModel.unpack.compare y.toModel.unpack == some .eq) =
    (x'.toModel.unpack.compare y'.toModel.unpack == some .eq)
  rw [(alike_iff_unpack.1 hx).compare_eq (alike_iff_unpack.1 hy)]

theorem isNaN_eq (hx : Alike x x') : Scalar.isNaN x = Scalar.isNaN x' := congrArg not (hx.beq_eq hx)

theorem isInf_eq (hx : Alike x x') : Scalar.isInf x = Scalar.isInf x' := by
  rw [Scalar.isInf, Scalar.isInf, hx.beq_eq (.refl inf), hx.beq_eq (.refl (-inf))]

theorem isFinite_eq (hx : Alike x x') : Scalar.isFinite x = Scalar.isFinite x' := by
  rw [Scalar.isFinite, Scalar.isFinite, hx.isNaN_eq, hx.isInf_eq]

theorem near_eq (hx : Alike x x') (hy : Alike y y') : near x y = near x' y' := by
  have hlt := (hx.sub hy).abs.lt_iff (.refl tolerance)
  rw [near, near, nearWithin, nearWithin, hx.beq_eq hy, hx.isNaN_eq, hy.isNaN_eq, decide_eq_decide.2 hlt]

theorem below_eq (hx : Alike x x') (hy : Alike y y') : below x y = below x' y' :=
  congrArg₂ (fun p q => !p && q) (hx.near_eq hy) (decide_eq_decide.2 (hx.lt_iff hy))

theorem atMost_eq (hx : Alike x x') (hy : Alike y y') : atMost x y = atMost x' y' :=
  congrArg₂ (· || ·) (hx.near_eq hy) (decide_eq_decide.2 (hx.lt_iff hy))

theorem above_eq (hx : Alike x x') (hy : Alike y y') : above x y = above x' y' :=
  congrArg₂ (fun p q => !p && q) (hx.near_eq hy) (decide_eq_decide.2 (hy.lt_iff hx))

theorem atLeast_eq (hx : Alike x x') (hy : Alike y y') : atLeast x y = atLeast x' y' :=
  congrArg₂ (· || ·) (hx.near_eq hy) (decide_eq_decide.2 (hy.lt_iff hx))

/-- A choice between numbers that are alike, under conditions that amount to the same. -/
theorem ite {c c' : Prop} [Decidable c] [Decidable c'] (hc : c ↔ c') (hx : Alike x x') (hy : Alike y y') :
    Alike (if c then x else y) (if c' then x' else y') := by
  by_cases h : c
  · rwa [if_pos h, if_pos (hc.1 h)]
  · rwa [if_neg h, if_neg fun h' => h (hc.2 h')]

theorem least (hx : Alike x x') (hy : Alike y y') : Alike (Scalar.least x y) (Scalar.least x' y') :=
  .ite (hy.lt_iff hx) hy hx

/-- A function that is one at both zeros does not see the sign of its argument. -/
theorem oneAtZero (f : Float → Float) (hx : Alike x x') :
    Alike (FuzzyInference.oneAtZero f x) (FuzzyInference.oneAtZero f x') := by
  rcases hx.eq_or_zeros with rfl | ⟨rfl | rfl, rfl | rfl⟩
  · exact .refl _
  all_goals exact .refl 1.0

end Alike

end Float

/-! ## §4 Computations that may be refused -/

/-- Two computations that are refused for the same reason, or have values that are alike. -/
inductive SameResult {ε : Type} : Except ε Float → Except ε Float → Prop
  | ok {x y : Float} (h : Float.Alike x y) : SameResult (.ok x) (.ok y)
  | error (e : ε) : SameResult (.error e) (.error e)

namespace SameResult

variable {ε : Type} {r r' : Except ε Float} {x y x' y' : Float}

theorem refl (r : Except ε Float) : SameResult r r := by
  cases r with
  | ok x => exact .ok (.refl x)
  | error e => exact .error e

theorem bind {g g' : Float → Except ε Float} (hr : SameResult r r')
    (hg : ∀ {y y'}, Float.Alike y y' → SameResult (g y) (g' y')) : SameResult (r >>= g) (r' >>= g') := by
  cases hr with
  | ok h => exact hg h
  | error e => exact .error e

/-- A choice between computations, under conditions that amount to the same. -/
theorem ite {s s' : Except ε Float} {c c' : Prop} [Decidable c] [Decidable c'] (hc : c ↔ c') (hr : SameResult r r')
    (hs : SameResult s s') : SameResult (if c then r else s) (if c' then r' else s') := by
  by_cases h : c
  · rwa [if_pos h, if_pos (hc.1 h)]
  · rwa [if_neg h, if_neg fun h' => h (hc.2 h')]

theorem liftM {r r' : Except Fault Float} (hr : SameResult r r') :
    SameResult (liftM r : Except Error Float) (liftM r') := by
  cases hr with
  | ok h => exact .ok h
  | error f => exact .error _

/-- The sign of a zero would show in a quotient by it, which is refused. -/
theorem divide (hx : Float.Alike x x') (hy : Float.Alike y y') :
    SameResult (Scalar.divide x y) (Scalar.divide x' y') := by
  unfold Scalar.divide
  rw [← hy.beq_eq (.refl 0.0)]
  cases hzero : y == 0.0 with
  | true => exact .error _
  | false =>
    -- the divisors are then the same number
    obtain rfl | ⟨rfl | rfl, -⟩ := hy.eq_or_zeros
    · exact .ok (hx.div y)
    · cases hzero
    · cases hzero

theorem square (hx : Float.Alike x x') : SameResult (Scalar.square x) (Scalar.square x') := by
  unfold Scalar.square
  dsimp only
  rw [(hx.mul hx).isInf_eq, hx.isFinite_eq]
  exact .ite .rfl (.error _) (.ok (hx.mul hx))

/-- A real function that is one at both zeros. -/
theorem apply {g : Elementary} {f : Float → Float} (hg : floatElementary g = oneAtZero f) (hx : Float.Alike x x') :
    SameResult (Scalar.apply g x) (Scalar.apply g x') := by
  have hvalue : Float.Alike (elementary g x) (elementary g x') := by
    change Float.Alike (floatElementary g x) (floatElementary g x')
    rw [hg]
    exact .oneAtZero f hx
  unfold Scalar.apply
  dsimp only
  rw [hvalue.isNaN_eq, hvalue.isInf_eq, hx.isNaN_eq, hx.isFinite_eq]
  exact .ite .rfl (.error _) (.ite .rfl (.error _) (.ok hvalue))

/-- Of a power only the exponent may differ; a base of zero may be refused or not according to its sign. -/
theorem power (x : Float) (hy : Float.Alike y y') : SameResult (Scalar.power x y) (Scalar.power x y') := by
  have hvalue : Float.Alike (pow x y) (pow x y') := .oneAtZero (Float.pow x) hy
  unfold Scalar.power
  dsimp only
  rw [hvalue.isNaN_eq, hvalue.isInf_eq, hy.isFinite_eq]
  exact .ite .rfl (.ite .rfl (.error _) (.ite .rfl (.error _) (.ok hvalue))) (.ok hvalue)

end SameResult

end FuzzyInference
