import FuzzyInference.Proofs.Exact.Bisection

/-!
# Integral defuzzifiers

What an integral defuzzifier computes is a point of the range, wherever the degrees are real numbers that are not
negative. And it is the same point whatever the unit and the origin are in which the range is measured: samples move
with the range, their degrees stay, and every method passes positions on or takes means of them.

Where a range is reflected, the samples come in the opposite order. Their center of gravity does not depend on the
order, and the first and the last point of greatest degree change places. A bisection and the first plateau do depend
on the order.

The plan of this module:

* the values of all methods, which lie in the range, and the order of three of them;
* positions that move, and positions that are reflected;
* functions over a range that is measured differently.

## Main statements

* `Defuzzifier.defuzzify_mem_range`: the range, and the order
* `IntegralMethod.exists_reduce`: samples that move
* `IntegralMethod.gives_rescaled`: functions
-/

namespace FuzzyInference

open Scalar Exact Checked

/-! ## §1 Values in the range -/

section Range

variable {minimum maximum : ℝ} {n : ℕ} {x y : ℕ → ℝ}

/-- The point of a bisection lies in the range. -/
theorem Exact.exists_bisector_mem (hn : 1 ≤ n) (hrange : minimum ≤ maximum)
    (hx : ∀ i < n, x i ∈ Set.Icc minimum maximum) (hy : ∀ i < n, 0 ≤ y i) :
    ∃ v ∈ Set.Icc minimum maximum,
      bisector (finite minimum) (finite maximum) (sampleList n x y) = finite v := by
  obtain ⟨k, hk, hkn, -, hcount⟩ := Sweep.exists_run hn x y minimum maximum
  refine ⟨_, balancePoint_mem ?_ ?_ ?_ ?_, bisector_of_count (by rw [length_sampleList]; exact hcount)⟩
  · exact Finset.sum_nonneg fun i hi => hy i ((Finset.mem_range.1 hi).trans_le hkn)
  · exact Finset.sum_nonneg fun i hi => hy i (Finset.mem_Ico.1 hi).2
  · rw [if_neg (by omega)]
    exact hx (k - 1) (by omega)
  · split
    · exact ⟨hrange, le_rfl⟩
    · exact hx k (by omega)

end Range

/-- Over a range of real numbers, where the degrees of a set at the samples are not negative, every integral
defuzzifier has a value in the range. The smallest and the largest maximum are the first and the last sample whose
degree is within the tolerance of the greatest one, and the mean of the maximum lies between them. -/
theorem Defuzzifier.defuzzify_mem_range {s : FuzzySet Exact} (hs : isEmptyOutput s = false)
    (around : Option (Surroundings Exact)) {minimum maximum : ℝ} (hrange : minimum ≤ maximum) {n : ℕ} (hn : 1 ≤ n)
    {y : ℕ → ℝ} (hy : ∀ i < n, 0 ≤ y i ∧
      s.membership around (finite (cellMiddle minimum maximum n i)) = .ok (finite (y i))) :
    (∀ m : IntegralMethod, ∃ v ∈ Set.Icc minimum maximum,
      (integral m n).defuzzify around s (finite minimum) (finite maximum) = .ok (finite v)) ∧
    ∃ i k c, IsLeast {l | NearPeak n y l} i ∧ IsGreatest {l | NearPeak n y l} k ∧
      (integral .smallestOfMaximum n).defuzzify around s (finite minimum) (finite maximum) =
        .ok (finite (cellMiddle minimum maximum n i)) ∧
      (integral .largestOfMaximum n).defuzzify around s (finite minimum) (finite maximum) =
        .ok (finite (cellMiddle minimum maximum n k)) ∧
      (integral .meanOfMaximum n).defuzzify around s (finite minimum) (finite maximum) = .ok (finite c) ∧
      cellMiddle minimum maximum n i ≤ c ∧ c ≤ cellMiddle minimum maximum n k := by
  have hmem : ∀ i < n, cellMiddle minimum maximum n i ∈ Set.Icc minimum maximum := fun i hi =>
    cellMiddle_mem hrange hi
  have hvalue : ∀ m v, IntegralMethod.reduce m (finite minimum) (finite maximum)
      (sampleList n (cellMiddle minimum maximum n) y) = .ok v →
        (integral m n).defuzzify around s (finite minimum) (finite maximum) = .ok v := by
    intro m v hv
    rw [defuzzify_integral m hs, IntegralMethod.integrate_eq m hn fun i hi => (hy i hi).2, hv]
    rfl
  obtain ⟨i, k, j, hi, hk, hj, hpeaks⟩ := exists_peaks hn y
  obtain ⟨hsmallest, hlargest, hmean⟩ := hpeaks (cellMiddle minimum maximum n) (finite minimum) (finite maximum)
  have hij := cellMiddle_mono (n := n) hrange (hi.2 hj)
  have hjk := cellMiddle_mono (n := n) hrange (hk.2 hj)
  have hik := cellMiddle_mono (n := n) hrange (hi.2 hk.1)
  refine ⟨fun m => ?_, i, k, _, hi, hk, hvalue _ _ hsmallest, hvalue _ _ hlargest, hvalue _ _ hmean, ?_, ?_⟩
  · cases m with
    | bisector =>
      obtain ⟨v, hv, hbisector⟩ := Exact.exists_bisector_mem hn hrange hmem fun i hi => (hy i hi).1
      exact ⟨v, hv, hvalue .bisector _ (congrArg Except.ok hbisector)⟩
    | centroid =>
      exact ⟨_, gravityCenter_mem hrange hmem fun i hi => (hy i hi).1,
        hvalue .centroid _ (congrArg Except.ok (centroid_sampleList _ _ _ _ _))⟩
    | largestOfMaximum => exact ⟨_, hmem k hk.1.1, hvalue _ _ hlargest⟩
    | meanOfMaximum => exact ⟨_, half_mul_add_mem (hmem i hi.1.1) (hmem j hj.1), hvalue _ _ hmean⟩
    | smallestOfMaximum => exact ⟨_, hmem i hi.1.1, hvalue _ _ hsmallest⟩
  · rw [half_eq]
    linarith
  · rw [half_eq]
    linarith

/-- A term that is activated to one half. -/
noncomputable def Exact.halfOn : FuzzySet Exact :=
  .aggregated ⟨"y", 0.0, 1.0, none, [⟨⟨0, "ON", .constant 1.0⟩, 0.5, none⟩]⟩

/-- Both samples of this set have its greatest degree. -/
theorem Defuzzifier.defuzzify_mem_range_halfOn :
    (∀ m : IntegralMethod, ∃ v ∈ Set.Icc (0 : ℝ) 1,
      (integral m 2).defuzzify none halfOn (finite 0) (finite 1) = .ok (finite v)) ∧
    ∃ a b c : ℝ, a ≤ b ∧ b ≤ c ∧
      (integral .smallestOfMaximum 2).defuzzify none halfOn (finite 0) (finite 1) = .ok (finite a) ∧
      (integral .meanOfMaximum 2).defuzzify none halfOn (finite 0) (finite 1) = .ok (finite b) ∧
      (integral .largestOfMaximum 2).defuzzify none halfOn (finite 0) (finite 1) = .ok (finite c) := by
  have hdegree : ∀ x, halfOn.membership none x = .ok (finite half) := by
    intro x
    show Except.ok ((0.5 : Exact) * 1.0) = _
    rw [literal_half, literal_one, finite_mul, mul_one]
  obtain ⟨hrange, i, k, c, -, -, hsmallest, hlargest, hmean, hic, hck⟩ :=
    defuzzify_mem_range (s := halfOn) rfl none zero_le_one (n := 2) (by omega) (y := fun _ => half)
      fun i _ => ⟨half_eq.symm ▸ one_half_pos.le, hdegree _⟩
  exact ⟨hrange, _, c, _, hic, hck, hsmallest, hmean, hlargest⟩

/-! ## §2 Positions that move -/

namespace Halves

variable {α : Type} [Scalar α] (f : α → α)

/-- The same areas at positions that have moved. -/
def move (h : Halves α) : Halves α := { h with leftX := f h.leftX, rightX := f h.rightX }

/-- Sides are chosen by areas, so that a bisection only passes positions on. -/
theorem count_move (n : ℕ) (h : Halves α) (ls rs : List (α × α)) :
    (h.move f).count n (ls.map (Prod.map f id)) (rs.map (Prod.map f id)) = (h.count n ls rs).move f := by
  induction n generalizing h ls rs with
  | zero => rfl
  | succ n ih =>
    cases hside : atMost h.leftArea h.rightArea with
    | true =>
      have hside' : atMost (h.move f).leftArea (h.move f).rightArea = true := hside
      cases ls with
      | nil =>
        have hstop : h.count (n + 1) [] rs = h := if_pos hside
        rw [hstop]
        exact if_pos hside'
      | cons p ls =>
        rw [count_left hside, List.map_cons, count_left hside', ← ih]
        rfl
    | false =>
      have hside' : atMost (h.move f).leftArea (h.move f).rightArea = false := hside
      cases rs with
      | nil =>
        have hstop : h.count (n + 1) ls [] = h := if_neg (Bool.eq_false_iff.1 hside)
        rw [hstop]
        exact if_neg (Bool.eq_false_iff.1 hside')
      | cons p rs =>
        rw [count_right hside, List.map_cons, count_right hside', ← ih]
        rfl

end Halves

namespace Exact

variable {n : ℕ}

theorem cellMiddle_affine (minimum maximum : ℝ) (n i : ℕ) (a b : ℝ) :
    cellMiddle (a * minimum + b) (a * maximum + b) n i = a * cellMiddle minimum maximum n i + b := by
  unfold cellMiddle
  ring

/-- The samples of a reflected range, from the last one to the first. -/
theorem cellMiddle_reflect (minimum maximum : ℝ) {i : ℕ} (hi : i < n) :
    cellMiddle (-maximum) (-minimum) n i = -cellMiddle minimum maximum n (n - 1 - i) := by
  have hne : (n : ℝ) ≠ 0 := Nat.cast_ne_zero.2 (by omega)
  unfold cellMiddle
  rw [half_eq, Nat.cast_sub (by omega), Nat.cast_sub (by omega), Nat.cast_one]
  field_simp
  ring

theorem gravityCenter_affine (minimum maximum : ℝ) (n : ℕ) (x y : ℕ → ℝ) (a b : ℝ) :
    gravityCenter (a * minimum + b) (a * maximum + b) n (fun i => a * x i + b) y =
      a * gravityCenter minimum maximum n x y + b := by
  unfold gravityCenter
  split
  · rw [half_eq]
    ring
  next harea =>
    have hne : ∑ i ∈ Finset.range n, y i ≠ 0 := fun hzero => by
      rw [hzero, abs_zero] at harea
      exact harea epsilon_pos
    have hmoments : ∑ i ∈ Finset.range n, (a * x i + b) * y i =
        a * ∑ i ∈ Finset.range n, x i * y i + b * ∑ i ∈ Finset.range n, y i := by
      rw [Finset.mul_sum, Finset.mul_sum, ← Finset.sum_add_distrib]
      exact Finset.sum_congr rfl fun i _ => by ring
    rw [hmoments, add_div, mul_div_assoc, mul_div_cancel_right₀ _ hne]

/-- The center of gravity of reflected samples. -/
theorem gravityCenter_reflect (minimum maximum : ℝ) (n : ℕ) (x y : ℕ → ℝ) :
    gravityCenter (-maximum) (-minimum) n (fun i => -x (n - 1 - i)) (fun i => y (n - 1 - i)) =
      -gravityCenter minimum maximum n x y := by
  have hareas := Finset.sum_range_reflect y n
  have hmoments := Finset.sum_range_reflect (fun i => -x i * y i) n
  simp only [neg_mul, Finset.sum_neg_distrib] at hmoments
  unfold gravityCenter
  simp only [hareas, neg_mul, Finset.sum_neg_distrib, hmoments]
  split
  · ring
  · rw [neg_div]

theorem balancePoint_affine (minimum maximum a b p q c d : ℝ) :
    balancePoint (c * minimum + d) (c * maximum + d) a b (c * p + d) (c * q + d) =
      c * balancePoint minimum maximum a b p q + d := by
  unfold balancePoint
  split
  · rw [half_eq]
    ring
  next harea =>
    have hne : a + b ≠ 0 := fun hzero => by
      rw [hzero, abs_zero] at harea
      exact harea epsilon_pos
    field_simp
    ring

/-- The point of a bisection moves with the samples. -/
theorem exists_bisector (hn : 1 ≤ n) (x y : ℕ → ℝ) (minimum maximum : ℝ) :
    ∃ v, bisector (finite minimum) (finite maximum) (sampleList n x y) = finite v ∧
      ∀ c d, bisector (finite (c * minimum + d)) (finite (c * maximum + d))
        (sampleList n (fun i => c * x i + d) y) = finite (c * v + d) := by
  obtain ⟨k, -, -, -, hcount⟩ := Sweep.exists_run hn x y minimum maximum
  refine ⟨_, bisector_of_count (by rw [length_sampleList]; exact hcount), fun c d => ?_⟩
  obtain ⟨move, hmove⟩ : ∃ f : Exact → Exact, f = fun e => finite c * e + finite d := ⟨_, rfl⟩
  have hfinite : ∀ r, finite (c * r + d) = move (finite r) := fun r => by
    simp only [hmove, finite_mul, finite_add]
  have hsamples : sampleList n (fun i => c * x i + d) y = (sampleList n x y).map (Prod.map move id) := by
    unfold sampleList
    rw [List.map_map]
    exact List.map_congr_left fun i _ => Prod.ext (hfinite _) rfl
  have hmap := Halves.count_move move n ⟨0.0, 0.0, finite minimum, finite maximum⟩ (sampleList n x y)
    (sampleList n x y).reverse
  rw [hcount, List.map_reverse, ← hsamples] at hmap
  rw [← balancePoint_affine]
  refine bisector_of_count ?_
  simp only [length_sampleList, hfinite]
  exact hmap

/-- Degrees in the opposite order are greatest at the opposite places. -/
theorem nearPeak_reflect {y : ℕ → ℝ} {l : ℕ} (hl : l < n) :
    NearPeak n (fun i => y (n - 1 - i)) l ↔ NearPeak n y (n - 1 - l) := by
  have himage : (fun i => y (n - 1 - i)) '' Set.Iio n = y '' Set.Iio n := by
    ext t
    constructor
    · rintro ⟨i, hi, rfl⟩
      exact ⟨n - 1 - i, by simp only [Set.mem_Iio] at hi ⊢; omega, rfl⟩
    · rintro ⟨i, hi, rfl⟩
      refine ⟨n - 1 - i, by simp only [Set.mem_Iio] at hi ⊢; omega, ?_⟩
      simp only [Set.mem_Iio] at hi
      simp only [show n - 1 - (n - 1 - i) = i by omega]
  unfold NearPeak
  rw [himage]
  exact and_congr ⟨fun _ => by omega, fun _ => hl⟩ Iff.rfl

/-- The first and the last point of greatest degree change places where samples are reflected. -/
theorem exists_peaks_reflect (hn : 1 ≤ n) (x y : ℕ → ℝ) (minimum maximum minimum' maximum' : Exact) :
    ∃ v w,
      IntegralMethod.smallestOfMaximum.reduce minimum maximum (sampleList n x y) = .ok (finite v) ∧
      IntegralMethod.largestOfMaximum.reduce minimum maximum (sampleList n x y) = .ok (finite w) ∧
      IntegralMethod.smallestOfMaximum.reduce minimum' maximum'
        (sampleList n (fun i => -x (n - 1 - i)) fun i => y (n - 1 - i)) = .ok (finite (-w)) ∧
      IntegralMethod.largestOfMaximum.reduce minimum' maximum'
        (sampleList n (fun i => -x (n - 1 - i)) fun i => y (n - 1 - i)) = .ok (finite (-v)) := by
  obtain ⟨i, k, j, hi, hk, -, hpeaks⟩ := exists_peaks hn y
  obtain ⟨i', k', j', hi', hk', -, hpeaks'⟩ := exists_peaks hn fun i => y (n - 1 - i)
  have hin : i < n := hi.1.1
  have hkn : k < n := hk.1.1
  have hleast : IsLeast {l | NearPeak n (fun i => y (n - 1 - i)) l} (n - 1 - k) := by
    refine ⟨(nearPeak_reflect (by omega)).2 ?_, fun l hl => ?_⟩
    · rw [show n - 1 - (n - 1 - k) = k by omega]
      exact hk.1
    · have hln : l < n := hl.1
      have hle := hk.2 ((nearPeak_reflect hln).1 hl)
      omega
  have hgreatest : IsGreatest {l | NearPeak n (fun i => y (n - 1 - i)) l} (n - 1 - i) := by
    refine ⟨(nearPeak_reflect (by omega)).2 ?_, fun l hl => ?_⟩
    · rw [show n - 1 - (n - 1 - i) = i by omega]
      exact hi.1
    · have hln : l < n := hl.1
      have hle := hi.2 ((nearPeak_reflect hln).1 hl)
      omega
  obtain rfl := hi'.unique hleast
  obtain rfl := hk'.unique hgreatest
  obtain ⟨hsmallest, hlargest, -⟩ := hpeaks x minimum maximum
  obtain ⟨hsmallest', hlargest', -⟩ := hpeaks' (fun i => -x (n - 1 - i)) minimum' maximum'
  simp only [show n - 1 - (n - 1 - k) = k by omega] at hsmallest'
  simp only [show n - 1 - (n - 1 - i) = i by omega] at hlargest'
  exact ⟨_, _, hsmallest, hlargest, hsmallest', hlargest'⟩

end Exact

/-! ## §3 Functions over a range -/

namespace IntegralMethod

/-- Every method has a value for samples, and it moves with them. -/
theorem exists_reduce (m : IntegralMethod) {n : ℕ} (hn : 1 ≤ n) (x y : ℕ → ℝ) (minimum maximum : ℝ) :
    ∃ v, m.reduce (finite minimum) (finite maximum) (sampleList n x y) = .ok (finite v) ∧
      ∀ a b, m.reduce (finite (a * minimum + b)) (finite (a * maximum + b))
        (sampleList n (fun i => a * x i + b) y) = .ok (finite (a * v + b)) := by
  obtain ⟨i, k, j, -, -, -, hpeaks⟩ := exists_peaks hn y
  cases m with
  | bisector =>
    obtain ⟨v, hv, hmoved⟩ := exists_bisector hn x y minimum maximum
    exact ⟨v, congrArg Except.ok hv, fun a b => congrArg Except.ok (hmoved a b)⟩
  | centroid =>
    refine ⟨_, congrArg Except.ok (centroid_sampleList minimum maximum n x y), fun a b => ?_⟩
    rw [← gravityCenter_affine]
    exact congrArg Except.ok (centroid_sampleList _ _ n _ y)
  | largestOfMaximum => exact ⟨_, (hpeaks x _ _).2.1, fun a b => (hpeaks _ _ _).2.1⟩
  | meanOfMaximum =>
    refine ⟨_, (hpeaks x _ _).2.2, fun a b => (hpeaks _ _ _).2.2.trans ?_⟩
    rw [half_eq]
    ring_nf
  | smallestOfMaximum => exact ⟨_, (hpeaks x _ _).1, fun a b => (hpeaks _ _ _).1⟩

/-- The value of a method for a real function over a range: of every function that agrees with it on the real
numbers, and of every fuzzy set whose membership does, unless it is an empty output. -/
def Gives (m : IntegralMethod) (f : ℝ → ℝ) (minimum maximum : ℝ) (n : ℕ) (v : ℝ) : Prop :=
  (∀ μ : Exact → Except Error Exact, (∀ x, μ (finite x) = .ok (finite (f x))) →
    m.integrate μ (finite minimum) (finite maximum) n = .ok (finite v)) ∧
  ∀ (s : FuzzySet Exact) (around : Option (Surroundings Exact)), Defuzzifier.isEmptyOutput s = false →
    (∀ x, s.membership around (finite x) = .ok (finite (f x))) →
      (Defuzzifier.integral m n).defuzzify around s (finite minimum) (finite maximum) = .ok (finite v)

variable {m : IntegralMethod} {f : ℝ → ℝ} {minimum maximum v : ℝ} {n : ℕ}

theorem gives_of_reduce {x y : ℕ → ℝ} (hn : 1 ≤ n)
    (hx : ∀ i < n, cellMiddle minimum maximum n i = x i) (hy : ∀ i < n, f (x i) = y i)
    (h : m.reduce (finite minimum) (finite maximum) (sampleList n x y) = .ok (finite v)) :
    m.Gives f minimum maximum n v := by
  have hsamples : sampleList n (cellMiddle minimum maximum n) y = sampleList n x y := by
    refine List.map_congr_left fun i hi => ?_
    rw [hx i (List.mem_range.1 hi)]
  have hvalue : ∀ μ : Exact → Except Error Exact, (∀ x, μ (finite x) = .ok (finite (f x))) →
      m.integrate μ (finite minimum) (finite maximum) n = .ok (finite v) := by
    intro μ hμ
    rw [integrate_eq m hn fun i hi => by rw [hμ, hx i hi, hy i hi], hsamples, h]
    rfl
  refine ⟨hvalue, fun s around hs hμ => ?_⟩
  rw [Defuzzifier.defuzzify_integral m hs]
  exact hvalue _ hμ

/-- Integral defuzzification does not depend on the unit and the origin in which a range is measured. Where the
range is reflected, the center of gravity is reflected too, and the smallest and the largest maximum are reflected
and change places. -/
theorem gives_rescaled (f : ℝ → ℝ) (minimum maximum : ℝ) (hn : 1 ≤ n) :
    (∀ (m : IntegralMethod) (g : ℝ → ℝ) (a b : ℝ), (∀ x, g (a * x + b) = f x) →
      ∃ v, m.Gives f minimum maximum n v ∧ m.Gives g (a * minimum + b) (a * maximum + b) n (a * v + b)) ∧
    ∀ g : ℝ → ℝ, (∀ x, g (-x) = f x) →
      (∃ v, centroid.Gives f minimum maximum n v ∧ centroid.Gives g (-maximum) (-minimum) n (-v)) ∧
      ∃ v w, smallestOfMaximum.Gives f minimum maximum n v ∧ largestOfMaximum.Gives f minimum maximum n w ∧
        smallestOfMaximum.Gives g (-maximum) (-minimum) n (-w) ∧
        largestOfMaximum.Gives g (-maximum) (-minimum) n (-v) := by
  obtain ⟨x, hx⟩ : ∃ x, x = cellMiddle minimum maximum n := ⟨_, rfl⟩
  have hf : ∀ m v, reduce m (finite minimum) (finite maximum) (sampleList n x fun i => f (x i)) = .ok (finite v) →
      m.Gives f minimum maximum n v := fun m v =>
    gives_of_reduce hn (fun i _ => by rw [hx]) fun i _ => rfl
  refine ⟨fun m g a b hg => ?_, fun g hg => ?_⟩
  · obtain ⟨v, hv, hmoved⟩ := exists_reduce m hn x (fun i => f (x i)) minimum maximum
    refine ⟨v, hf m v hv, gives_of_reduce hn (fun i _ => ?_) (fun i _ => hg (x i)) (hmoved a b)⟩
    rw [cellMiddle_affine, hx]
  · have hreflected : ∀ m v, reduce m (finite (-maximum)) (finite (-minimum))
        (sampleList n (fun i => -x (n - 1 - i)) fun i => f (x (n - 1 - i))) = .ok (finite v) →
          m.Gives g (-maximum) (-minimum) n v := fun m v =>
      gives_of_reduce hn (fun i hi => by rw [cellMiddle_reflect minimum maximum hi, hx]) fun i _ => hg _
    constructor
    · refine ⟨_, hf .centroid _ (congrArg Except.ok (centroid_sampleList _ _ _ _ _)),
        hreflected .centroid _ (congrArg Except.ok ?_)⟩
      rw [← gravityCenter_reflect]
      exact centroid_sampleList _ _ _ _ _
    · obtain ⟨v, w, hsmallest, hlargest, hsmallest', hlargest'⟩ := exists_peaks_reflect hn x (fun i => f (x i))
        (finite minimum) (finite maximum) (finite (-maximum)) (finite (-minimum))
      exact ⟨v, w, hf _ _ hsmallest, hf _ _ hlargest, hreflected _ _ hsmallest', hreflected _ _ hlargest'⟩

/-- A parabola, measured in halves from one on, and reflected. -/
theorem gives_rescaled_parabola :
    (∃ v, centroid.Gives (fun x => x ^ 2) 0 1 4 v ∧
      centroid.Gives (fun x => ((x - 1) / 2) ^ 2) (2 * 0 + 1) (2 * 1 + 1) 4 (2 * v + 1)) ∧
    ∃ v w, smallestOfMaximum.Gives (fun x => x ^ 2) 0 1 4 v ∧ largestOfMaximum.Gives (fun x => x ^ 2) 0 1 4 w ∧
      smallestOfMaximum.Gives (fun x => x ^ 2) (-1) (-0) 4 (-w) ∧
      largestOfMaximum.Gives (fun x => x ^ 2) (-1) (-0) 4 (-v) := by
  obtain ⟨hmoved, hreflected⟩ := gives_rescaled (fun x => x ^ 2) 0 1 (n := 4) (by omega)
  refine ⟨hmoved centroid _ 2 1 fun x => ?_, (hreflected _ fun x => neg_sq x).2⟩
  rw [add_sub_cancel_right, mul_div_cancel_left₀ x two_ne_zero]

end IntegralMethod

end FuzzyInference
