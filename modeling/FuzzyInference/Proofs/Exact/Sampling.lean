import FuzzyInference.Proofs.Exact.Averages

/-!
# Samples of real numbers

An integral defuzzifier looks at a fuzzy set at the middles of as many cells as its resolution says, and at nothing
else. Over a range of real numbers these are real numbers, and where the set has real degrees there, what the methods
compute are sums, quotients and choices of real numbers.

The plan of this module:

* the middles of cells, and samples;
* the value of a method over a range;
* centers of gravity, which are means of points;
* the points of greatest degree, whose indices depend on the degrees alone.

## Main statements

* `IntegralMethod.integrate_eq`, `Defuzzifier.defuzzify_integral`: what is sampled
* `centroid_sampleList`: the center of gravity
* `exists_peaks`: the first, the last and the mean point of greatest degree
-/

namespace FuzzyInference

open Scalar Exact Checked

/-! ## §1 Grids -/

namespace Exact

/-- The middle of one of the cells that cut a range of real numbers. -/
noncomputable def cellMiddle (minimum maximum : ℝ) (n i : ℕ) : ℝ :=
  minimum + (i + half) * ((maximum - minimum) / n)

section Grid

variable {minimum maximum : ℝ} {n i j : ℕ}

theorem cellMiddle_mono (h : minimum ≤ maximum) (hij : i ≤ j) :
    cellMiddle minimum maximum n i ≤ cellMiddle minimum maximum n j := by
  have hwidth : 0 ≤ (maximum - minimum) / n := div_nonneg (sub_nonneg.2 h) n.cast_nonneg
  have hcast : (i : ℝ) ≤ j := Nat.cast_le.2 hij
  have hcells := mul_le_mul_of_nonneg_right (add_le_add_left hcast half) hwidth
  exact add_le_add_right hcells minimum

theorem cellMiddle_mem (h : minimum ≤ maximum) (hi : i < n) :
    cellMiddle minimum maximum n i ∈ Set.Icc minimum maximum := by
  have hpos : (0 : ℝ) < n := Nat.cast_pos.2 (by omega)
  have hwidth : 0 ≤ (maximum - minimum) / n := div_nonneg (sub_nonneg.2 h) hpos.le
  have hcast : (i : ℝ) + 1 ≤ n := by exact_mod_cast hi
  have hcells : (i + half) * ((maximum - minimum) / n) ≤ n * ((maximum - minimum) / n) :=
    mul_le_mul_of_nonneg_right (by linarith [half_eq]) hwidth
  rw [mul_div_cancel₀ _ hpos.ne'] at hcells
  have hstart : 0 ≤ (i + half) * ((maximum - minimum) / n) :=
    mul_nonneg (by linarith [half_eq, i.cast_nonneg (α := ℝ)]) hwidth
  exact ⟨by unfold cellMiddle; linarith, by unfold cellMiddle; linarith⟩

end Grid

/-- Samples at real points, with real degrees. -/
def sampleList (n : ℕ) (x y : ℕ → ℝ) : List (Exact × Exact) :=
  (List.range n).map fun i => (finite (x i), finite (y i))

section Samples

variable {n : ℕ} {x y : ℕ → ℝ}

@[simp] theorem length_sampleList (n : ℕ) (x y : ℕ → ℝ) : (sampleList n x y).length = n := by
  rw [sampleList, List.length_map, List.length_range]

theorem getElem?_sampleList {i : ℕ} (h : i < n) : (sampleList n x y)[i]? = some (finite (x i), finite (y i)) := by
  rw [sampleList, List.getElem?_map, List.getElem?_range h]
  rfl

theorem ofNat_eq (i : ℕ) : (Scalar.ofNat i : Exact) = finite i := by
  change finite (OfScientific.ofScientific i false 0 : ℝ) = finite i
  rw [← Rat.cast_ofScientific]
  change finite ((Rat.ofScientific i false 0 : ℚ) : ℝ) = finite i
  rw [Rat.ofScientific_false_def, pow_zero, mul_one, Rat.cast_natCast]

theorem grid_finite (minimum maximum : ℝ) (hn : 1 ≤ n) :
    grid (finite minimum) (finite maximum) n =
      .ok ((List.range n).map fun i => finite (cellMiddle minimum maximum n i)) := by
  have hne : ((n : ℤ) : ℝ) ≠ 0 := by
    exact_mod_cast (by omega : n ≠ 0)
  unfold grid
  rw [sampleCount_eq, ok_bind, finite_sub, divide_finite hne, ok_bind, Int.toNat_natCast]
  simp only [ofNat_eq, literal_half, finite_add, finite_mul, Int.cast_natCast]
  rfl

/-- Where a function has real degrees at the middles of cells, it can be sampled. -/
theorem samples_finite {f : Exact → Except Error Exact} {minimum maximum : ℝ} (hn : 1 ≤ n)
    (h : ∀ i < n, f (finite (cellMiddle minimum maximum n i)) = .ok (finite (y i))) :
    samples f (finite minimum) (finite maximum) n = .ok (sampleList n (cellMiddle minimum maximum n) y) := by
  unfold samples
  rw [grid_finite minimum maximum hn]
  show List.mapM _ _ = _
  rw [mapM_eq_ok_iff, sampleList, List.forall₂_map_left_iff, List.forall₂_map_right_iff, List.forall₂_same]
  intro i hi
  rw [h i (List.mem_range.1 hi)]
  rfl

end Samples

end Exact

/-! ## §2 The value of a method -/

section Value

variable {α : Type} [Scalar α]

/-- The value that a method gives a function over a range. -/
def IntegralMethod.integrate (m : IntegralMethod) (f : α → Except Error α) (minimum maximum : α)
    (resolution : Int) : Except Error α := do
  let ss ← samples f minimum maximum resolution
  m.reduce minimum maximum ss

end Value

theorem IntegralMethod.integrate_eq (m : IntegralMethod) {f : Exact → Except Error Exact} {minimum maximum : ℝ}
    {n : ℕ} {y : ℕ → ℝ} (hn : 1 ≤ n)
    (h : ∀ i < n, f (finite (cellMiddle minimum maximum n i)) = .ok (finite (y i))) :
    m.integrate f (finite minimum) (finite maximum) n =
      liftM (m.reduce (finite minimum) (finite maximum) (sampleList n (cellMiddle minimum maximum n) y)) := by
  unfold integrate
  rw [samples_finite hn h, ok_bind]

/-- A fuzzy set that is not an empty output is defuzzified by sampling its membership. -/
theorem Defuzzifier.defuzzify_integral (m : IntegralMethod) {s : FuzzySet Exact} (hs : isEmptyOutput s = false)
    (around : Option (Surroundings Exact)) (minimum maximum : ℝ) (resolution : Int) :
    (integral m resolution).defuzzify around s (finite minimum) (finite maximum) =
      m.integrate (s.membership around) (finite minimum) (finite maximum) resolution := by
  have hrange : ∀ r : ℝ, isFinite (finite r) = true := fun r => by simp [isFinite]
  simp only [defuzzify, hs, hrange]
  rfl

/-! ## §3 Centers of gravity -/

namespace Exact

/-- The sum of real numbers. -/
theorem total_finite (n : ℕ) (f : ℕ → ℝ) :
    total ((List.range n).map fun i => finite (f i)) = finite (∑ i ∈ Finset.range n, f i) := by
  unfold total
  induction n with
  | zero => simp
  | succ n ih =>
    rw [List.range_succ, List.map_append, List.foldl_append, ih, Finset.sum_range_succ]
    rfl

@[simp] theorem negligible_finite (x : ℝ) : negligible (finite x) = decide (|x| < epsilon) := by
  unfold negligible
  rw [abs_finite, tolerance_eq]
  exact decide_eq_decide.2 finite_lt_finite

@[simp] theorem middle_finite (minimum maximum : ℝ) :
    middle (finite minimum) (finite maximum) = finite (half * (minimum + maximum)) := by
  unfold middle
  rw [literal_half, finite_add, finite_mul]

/-- The mean of points with their degrees as weights, or the middle of the range where there is no weight to
speak of. -/
noncomputable def gravityCenter (minimum maximum : ℝ) (n : ℕ) (x y : ℕ → ℝ) : ℝ :=
  if |∑ i ∈ Finset.range n, y i| < epsilon then half * (minimum + maximum)
  else (∑ i ∈ Finset.range n, x i * y i) / ∑ i ∈ Finset.range n, y i

theorem centroid_sampleList (minimum maximum : ℝ) (n : ℕ) (x y : ℕ → ℝ) :
    centroid (finite minimum) (finite maximum) (sampleList n x y) =
      finite (gravityCenter minimum maximum n x y) := by
  have hpos := epsilon_pos
  have hareas : (sampleList n x y).map Prod.snd = (List.range n).map fun i => finite (y i) := by
    rw [sampleList, List.map_map]
    rfl
  have hmoments : ((sampleList n x y).map fun (x, y) => x * y) =
      (List.range n).map fun i => finite (x i * y i) := by
    rw [sampleList, List.map_map]
    rfl
  unfold centroid gravityCenter
  simp only [hareas, hmoments, total_finite, negligible_finite, middle_finite, decide_eq_true_eq]
  split
  · rfl
  next harea =>
    have hne : ∑ i ∈ Finset.range n, y i ≠ 0 := by
      intro hzero
      rw [hzero, abs_zero] at harea
      exact harea hpos
    exact finite_div hne

theorem half_mul_add_mem {x y lower upper : ℝ} (hx : x ∈ Set.Icc lower upper) (hy : y ∈ Set.Icc lower upper) :
    half * (x + y) ∈ Set.Icc lower upper := by
  obtain ⟨hlx, hxu⟩ := hx
  obtain ⟨hly, hyu⟩ := hy
  rw [half_eq]
  exact ⟨by linarith, by linarith⟩

theorem gravityCenter_mem {minimum maximum : ℝ} {n : ℕ} {x y : ℕ → ℝ} (hrange : minimum ≤ maximum)
    (hx : ∀ i < n, x i ∈ Set.Icc minimum maximum) (hy : ∀ i < n, 0 ≤ y i) :
    gravityCenter minimum maximum n x y ∈ Set.Icc minimum maximum := by
  unfold gravityCenter
  split
  · exact half_mul_add_mem ⟨le_rfl, hrange⟩ ⟨hrange, le_rfl⟩
  next harea =>
    have hnonneg : 0 ≤ ∑ i ∈ Finset.range n, y i := Finset.sum_nonneg fun i hi => hy i (Finset.mem_range.1 hi)
    rw [abs_of_nonneg hnonneg, not_lt] at harea
    simp only [mul_comm (x _)]
    -- sums over a range are sums over the list of its numbers
    exact quotient_mem (l := List.range n) (fun i hi => hy i (List.mem_range.1 hi))
      (fun i hi => hx i (List.mem_range.1 hi)) (epsilon_pos.trans_le harea)

/-! ## §4 Points of greatest degree -/

theorem isNaN_nan : isNaN (Scalar.nan : Exact) = true := by
  change (!decide (Same nan nan)) = true
  simp [Same]

/-- The greatest of real numbers. -/
theorem exists_peak {n : ℕ} (hn : 1 ≤ n) (y : ℕ → ℝ) :
    ∃ top, IsGreatest (y '' Set.Iio n) top ∧ peak ((List.range n).map fun i => finite (y i)) = finite top := by
  induction n, hn using Nat.le_induction with
  | base =>
    refine ⟨y 0, ⟨⟨0, Nat.one_pos, rfl⟩, ?_⟩, ?_⟩
    · rintro _ ⟨i, hi, rfl⟩
      rw [Nat.lt_one_iff.1 hi]
    · show (if isNaN Scalar.nan = true then finite (y 0) else _) = _
      rw [isNaN_nan, if_pos rfl]
  | succ n _ ih =>
    obtain ⟨_, ⟨⟨i, hi, rfl⟩, hupper⟩, hpeak⟩ := ih
    refine ⟨max (y i) (y n), ⟨?_, ?_⟩, ?_⟩
    · obtain hmax | hmax := max_choice (y i) (y n)
      · exact ⟨i, Nat.lt_succ_of_lt hi, hmax.symm⟩
      · exact ⟨n, Nat.lt_succ_self n, hmax.symm⟩
    · rintro _ ⟨j, hj, rfl⟩
      obtain hlt | rfl := Nat.lt_succ_iff_lt_or_eq.1 hj
      · exact (hupper ⟨j, hlt, rfl⟩).trans (le_max_left _ _)
      · exact le_max_right _ _
    · unfold peak at hpeak ⊢
      rw [List.range_succ, List.map_append, List.foldl_append, hpeak]
      show (if isNaN (finite (y i)) = true then _ else greatest (finite (y i)) (finite (y n))) = _
      rw [isNaN_finite, if_neg Bool.false_ne_true, greatest_finite]

@[simp] theorem reaches_finite (top y : ℝ) : reaches (finite top) (finite y) = decide (|y - top| < epsilon) := by
  unfold reaches
  rw [finite_sub, abs_finite, tolerance_eq]
  exact decide_eq_decide.2 finite_lt_finite

end Exact

/-- The first and the last item of a list that pass a test, and the last one of those that follow the first without
a gap. -/
def firstLast {β : Type} (p : β → Bool) (b : β) (bs : List β) : β × β × β :=
  let all := b :: bs
  ((all.find? p).getD b, (all.reverse.find? p).getD (all.getLastD b),
    ((all.dropWhile (! p ·)).takeWhile p).getLastD b)

theorem peakPoints_eq {α : Type} [Scalar α] (s : α × α) (ss : List (α × α)) :
    peakPoints s ss =
      Prod.map Prod.fst (Prod.map Prod.fst Prod.fst)
        (firstLast (fun p => reaches (peak ((s :: ss).map Prod.snd)) p.2) s ss) := rfl

theorem firstLast_map {β γ : Type} (p : γ → Bool) (f : β → γ) (b : β) (bs : List β) :
    firstLast p (f b) (bs.map f) =
      Prod.map f (Prod.map f f) (firstLast (p ∘ f) b bs) := by
  unfold firstLast
  have hnot : (fun c => ! p c) ∘ f = fun c => ! (p ∘ f) c := rfl
  simp only [← List.map_cons, ← List.map_reverse, List.find?_map, List.dropWhile_map, List.takeWhile_map, hnot,
    List.getLastD_map, Option.getD_map, Prod.map_apply]

/-- What is found in a list is before everything else that passes the test. -/
theorem before_of_find? {β : Type} {p : β → Bool} {r : β → β → Prop} {bs : List β} {b c : β}
    (hsorted : bs.Pairwise r) (hfound : bs.find? p = some b) (hc : c ∈ bs) (hp : p c = true) : b = c ∨ r b c := by
  obtain ⟨-, before, after, rfl, hbefore⟩ := List.find?_eq_some_iff_append.1 hfound
  obtain hmem | hmem := List.mem_append.1 hc
  · have hnot := hbefore c hmem
    rw [hp] at hnot
    cases hnot
  · obtain rfl | hafter := List.mem_cons.1 hmem
    · exact .inl rfl
    · have htail := (List.pairwise_append.1 hsorted).2.1
      exact .inr (List.rel_of_pairwise_cons htail hafter)

/-- The first and the last number below a bound that passes a test, and one between them. -/
theorem firstLast_range {p : ℕ → Bool} {n : ℕ} (h : ∃ i < n + 1, p i = true) :
    ∃ i k j, firstLast p 0 ((List.range n).map Nat.succ) = (i, k, j) ∧
      IsLeast {l | l < n + 1 ∧ p l = true} i ∧ IsGreatest {l | l < n + 1 ∧ p l = true} k ∧
      (j < n + 1 ∧ p j = true) := by
  have hall : 0 :: (List.range n).map Nat.succ = List.range (n + 1) := List.range_succ_eq_map.symm
  have hsome : ∃ l ∈ List.range (n + 1), p l = true := by
    obtain ⟨l, hl, hp⟩ := h
    exact ⟨l, List.mem_range.2 hl, hp⟩
  obtain ⟨i, hi⟩ := Option.isSome_iff_exists.1 (List.find?_isSome.2 hsome)
  obtain ⟨k, hk⟩ := Option.isSome_iff_exists.1
    (List.find?_isSome.2 (show ∃ l ∈ (List.range (n + 1)).reverse, p l = true by simpa using hsome))
  -- the items from the first one on that pass the test without a gap
  have hplateau : ((List.range (n + 1)).dropWhile (! p ·)).takeWhile p ≠ [] := by
    have hdrop : (List.range (n + 1)).dropWhile (! p ·) ≠ [] := by
      obtain ⟨l, hl, hp⟩ := hsome
      intro hnil
      simpa [hp] using List.dropWhile_eq_nil_iff.1 hnil l hl
    obtain ⟨b, bs, hbs⟩ := List.exists_cons_of_ne_nil hdrop
    have hhead := List.head_dropWhile_not (fun l => ! p l) hdrop
    simp only [hbs, List.head_cons, Bool.not_eq_false'] at hhead
    rw [hbs, List.takeWhile_cons_of_pos hhead]
    exact List.cons_ne_nil _ _
  obtain ⟨j, hj⟩ : ∃ j, (((List.range (n + 1)).dropWhile (! p ·)).takeWhile p).getLast hplateau = j := ⟨_, rfl⟩
  have hjmem := hj ▸ List.getLast_mem hplateau
  refine ⟨i, k, j, ?_, ⟨⟨?_, List.find?_some hi⟩, ?_⟩, ⟨⟨?_, List.find?_some hk⟩, ?_⟩, ?_, ?_⟩
  · unfold firstLast
    rw [hall]
    simp only [hi, hk, List.getLastD_eq_getLast?, List.getLast?_eq_some_getLast hplateau, hj, Option.getD_some]
  · exact List.mem_range.1 (List.mem_of_find?_eq_some hi)
  · rintro l ⟨hl, hp⟩
    obtain rfl | hlt := before_of_find? List.pairwise_lt_range hi (List.mem_range.2 hl) hp
    · exact le_rfl
    · exact hlt.le
  · exact List.mem_range.1 (List.mem_reverse.1 (List.mem_of_find?_eq_some hk))
  · rintro l ⟨hl, hp⟩
    have hdescending : (List.range (n + 1)).reverse.Pairwise (fun a b => b < a) :=
      List.pairwise_reverse.2 List.pairwise_lt_range
    obtain rfl | hlt := before_of_find? hdescending hk (List.mem_reverse.2 (List.mem_range.2 hl)) hp
    · exact le_rfl
    · exact hlt.le
  · have hmem := (List.dropWhile_sublist _).subset ((List.takeWhile_sublist _).subset hjmem)
    exact List.mem_range.1 hmem
  · exact List.mem_takeWhile_imp hjmem

namespace Exact

/-- The degree of a sample is within the tolerance of the greatest one. -/
def NearPeak (n : ℕ) (y : ℕ → ℝ) (i : ℕ) : Prop :=
  i < n ∧ ∃ top, IsGreatest (y '' Set.Iio n) top ∧ |y i - top| < epsilon

/-- Samples have points of greatest degree, the first one, the last one and the end of the first plateau. Their
indices depend on the degrees alone. -/
theorem exists_peaks {n : ℕ} (hn : 1 ≤ n) (y : ℕ → ℝ) :
    ∃ i k j, IsLeast {l | NearPeak n y l} i ∧ IsGreatest {l | NearPeak n y l} k ∧ NearPeak n y j ∧
      ∀ (x : ℕ → ℝ) (minimum maximum : Exact),
        IntegralMethod.smallestOfMaximum.reduce minimum maximum (sampleList n x y) = .ok (finite (x i)) ∧
        IntegralMethod.largestOfMaximum.reduce minimum maximum (sampleList n x y) = .ok (finite (x k)) ∧
        IntegralMethod.meanOfMaximum.reduce minimum maximum (sampleList n x y) =
          .ok (finite (half * (x i + x j))) := by
  obtain ⟨top, htop, hpeak⟩ := exists_peak hn y
  obtain ⟨n, rfl⟩ : ∃ m, n = m + 1 := ⟨n - 1, by omega⟩
  obtain ⟨p, hp⟩ : ∃ p : ℕ → Bool, p = fun l => decide (|y l - top| < epsilon) := ⟨_, rfl⟩
  have hnear : ∀ l, NearPeak (n + 1) y l ↔ l < n + 1 ∧ p l = true := by
    intro l
    rw [hp, decide_eq_true_eq]
    exact and_congr_right fun _ => ⟨fun ⟨t, ht, hl⟩ => ht.unique htop ▸ hl, fun hl => ⟨top, htop, hl⟩⟩
  have hsome : ∃ l < n + 1, p l = true := by
    obtain ⟨l, hl, hmax⟩ := htop.1
    refine ⟨l, hl, ?_⟩
    rw [hp, decide_eq_true_eq, hmax, sub_self, abs_zero]
    exact epsilon_pos
  obtain ⟨i, k, j, hfirst, hleast, hgreatest, hj⟩ := firstLast_range hsome
  simp only [hnear]
  refine ⟨i, k, j, hleast, hgreatest, hj, fun x minimum maximum => ?_⟩
  -- the samples are chosen like their indices
  have hcons : sampleList (n + 1) x y = (finite (x 0), finite (y 0)) ::
      ((List.range n).map Nat.succ).map fun l => (finite (x l), finite (y l)) := by
    rw [sampleList, List.range_succ_eq_map, List.map_cons]
  have hdegrees : (sampleList (n + 1) x y).map Prod.snd = (List.range (n + 1)).map fun l => finite (y l) := by
    rw [sampleList, List.map_map]
    rfl
  have hpoints : peakPoints (finite (x 0), finite (y 0))
      (((List.range n).map Nat.succ).map fun l => (finite (x l), finite (y l))) =
        (finite (x i), finite (x k), finite (x j)) := by
    have htest : ((fun s : Exact × Exact => reaches (finite top) s.2) ∘ fun l => (finite (x l), finite (y l))) = p := by
      funext l
      rw [hp]
      exact reaches_finite top (y l)
    have hchosen := firstLast_map (fun s : Exact × Exact => reaches (finite top) s.2)
      (fun l => (finite (x l), finite (y l))) 0 ((List.range n).map Nat.succ)
    rw [htest, hfirst] at hchosen
    rw [peakPoints_eq, ← hcons, hdegrees, hpeak, hchosen]
    rfl
  rw [hcons]
  simp only [IntegralMethod.reduce, hpoints, literal_half, finite_add, finite_mul, and_self]

end Exact

end FuzzyInference
