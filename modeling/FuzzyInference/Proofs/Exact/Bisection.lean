import FuzzyInference.Proofs.Exact.Sampling

/-!
# Bisections

A bisection counts samples from both ends towards the middle, the next one always at the side whose area is smaller.
Its loop is a *sweep*: two ends that draw nearer until they meet. However the sides take turns, the left one counts
the samples up to some index and the right one those from this index on, so that the areas of both sides are those
to the left and to the right of one place. They differ by no more than one degree and the tolerance of the
comparison, because the smaller side is the next one to grow.

The plan of this module:

* sweeps, and that counting both ends down is one;
* what a sweep over real samples has counted;
* how far the areas are apart;
* the point of the bisection.

## Main statements

* `Sweep.run_eq_count`: as many rounds as there are samples
* `Sweep.Counted.next`, `Sweep.Balanced.next`: what one round keeps
* `bisector_splits`: the loop and its result
-/

namespace FuzzyInference

open Scalar Exact Checked

/-! ## §1 Sweeps -/

/-- How far a bisection has come: how many samples it has counted from either end, and what it has counted. -/
structure Sweep (α : Type) where
  left : ℕ
  right : ℕ
  halves : Halves α

namespace Sweep

variable {α : Type} [Scalar α]

/-- Before the first round: no areas, and the ends of the range as positions. -/
def start (minimum maximum : α) : Sweep α := ⟨0, 0, ⟨0.0, 0.0, minimum, maximum⟩⟩

/-- One more sample on the left. -/
def countLeft (s : Sweep α) (p : α × α) : Sweep α :=
  ⟨s.left + 1, s.right, { s.halves with leftArea := s.halves.leftArea + p.2, leftX := p.1 }⟩

/-- One more sample on the right. -/
def countRight (s : Sweep α) (p : α × α) : Sweep α :=
  ⟨s.left, s.right + 1, { s.halves with rightArea := s.halves.rightArea + p.2, rightX := p.1 }⟩

/-- One round: until the ends meet, the side whose area is smaller counts its next sample. -/
def next (ss : List (α × α)) (s : Sweep α) : Option (Sweep α) :=
  if s.left + s.right < ss.length then
    if atMost s.halves.leftArea s.halves.rightArea then (ss[s.left]?).map s.countLeft
    else (ss.reverse[s.right]?).map s.countRight
  else none

/-- So many rounds, if the ends do not meet before. -/
def run (ss : List (α × α)) : ℕ → Sweep α → Option (Sweep α)
  | 0, s => some s
  | n + 1, s => (s.next ss).bind (run ss n)

theorem next_eq_none (ss : List (α × α)) {s : Sweep α} (h : ss.length ≤ s.left + s.right) : s.next ss = none :=
  if_neg (not_lt.2 h)

theorem next_of_atMost {ss : List (α × α)} {s : Sweep α} (hopen : s.left + s.right < ss.length)
    (hside : atMost s.halves.leftArea s.halves.rightArea = true) {p : α × α} (hp : ss[s.left]? = some p) :
    s.next ss = some (s.countLeft p) := by
  rw [next, if_pos hopen, if_pos hside, hp, Option.map_some]

theorem next_of_not_atMost {ss : List (α × α)} {s : Sweep α} (hopen : s.left + s.right < ss.length)
    (hside : atMost s.halves.leftArea s.halves.rightArea = false) {p : α × α}
    (hp : ss.reverse[s.right]? = some p) : s.next ss = some (s.countRight p) := by
  rw [next, if_pos hopen, if_neg (by simp [hside]), hp, Option.map_some]

end Sweep

namespace Halves

variable {α : Type} [Scalar α] {h : Halves α} {n : ℕ}

theorem count_left (hside : atMost h.leftArea h.rightArea = true) (p : α × α) (ls rs : List (α × α)) :
    h.count (n + 1) (p :: ls) rs =
      count { h with leftArea := h.leftArea + p.2, leftX := p.1 } n ls rs :=
  if_pos hside

theorem count_right (hside : atMost h.leftArea h.rightArea = false) (p : α × α) (ls rs : List (α × α)) :
    h.count (n + 1) ls (p :: rs) =
      count { h with rightArea := h.rightArea + p.2, rightX := p.1 } n ls rs :=
  if_neg (Bool.eq_false_iff.1 hside)

end Halves

namespace Sweep

section Rounds

variable {α : Type} [Scalar α] {ss : List (α × α)} {n : ℕ} {s t : Sweep α}

/-- Counting down the samples that are left, from both ends, is a sweep that ends where the ends meet. -/
theorem run_eq_count (hn : s.left + s.right + n = ss.length) :
    ∃ i j, i + j = ss.length ∧
      run ss n s = some ⟨i, j, s.halves.count n (ss.drop s.left) (ss.reverse.drop s.right)⟩ := by
  induction n generalizing s with
  | zero => exact ⟨s.left, s.right, hn, rfl⟩
  | succ n ih =>
    have hopen : s.left + s.right < ss.length := by omega
    have hleft : s.left < ss.length := by omega
    have hright : s.right < ss.reverse.length := by
      rw [List.length_reverse]
      omega
    unfold run
    cases hside : atMost s.halves.leftArea s.halves.rightArea with
    | true =>
      rw [next_of_atMost hopen hside (List.getElem?_eq_getElem hleft), List.drop_eq_getElem_cons hleft,
        Halves.count_left hside]
      exact ih (s := s.countLeft ss[s.left]) (by simp only [countLeft]; omega)
    | false =>
      rw [next_of_not_atMost hopen hside (List.getElem?_eq_getElem hright), List.drop_eq_getElem_cons hright,
        Halves.count_right hside]
      exact ih (s := s.countRight ss.reverse[s.right]) (by simp only [countRight]; omega)

/-- What every round keeps, all rounds keep. -/
theorem invariant_of_run {P : Sweep α → Prop} (hP : ∀ s t, P s → s.next ss = some t → P t) (hs : P s)
    (h : run ss n s = some t) : P t := by
  induction n generalizing s with
  | zero =>
    cases h
    exact hs
  | succ n ih =>
    obtain ⟨u, hu, hrest⟩ := Option.bind_eq_some_iff.1 h
    exact ih (hP s u hs hu) hrest

end Rounds

/-! ## §2 What is counted -/

section Counted

variable {n : ℕ} {x y : ℕ → ℝ} {minimum maximum top : ℝ} {s t : Sweep Exact}

/-- A round counts the first sample that the left side has not counted, or the last one that the right side has
not. -/
theorem cases_of_next (h : s.next (sampleList n x y) = some t) :
    s.left + s.right < n ∧
      ((atMost s.halves.leftArea s.halves.rightArea = true ∧
          t = s.countLeft (finite (x s.left), finite (y s.left))) ∨
        (atMost s.halves.leftArea s.halves.rightArea = false ∧
          t = s.countRight (finite (x (n - 1 - s.right)), finite (y (n - 1 - s.right))))) := by
  have hopen : s.left + s.right < n := by
    by_contra hmet
    rw [next_eq_none _ (by rw [length_sampleList]; omega)] at h
    cases h
  have hlength : s.left + s.right < (sampleList n x y).length := by rwa [length_sampleList]
  refine ⟨hopen, ?_⟩
  cases hside : atMost s.halves.leftArea s.halves.rightArea with
  | true =>
    rw [next_of_atMost hlength hside (getElem?_sampleList (by omega))] at h
    exact .inl ⟨rfl, (Option.some.inj h).symm⟩
  | false =>
    have hsample : (sampleList n x y).reverse[s.right]? =
        some (finite (x (n - 1 - s.right)), finite (y (n - 1 - s.right))) := by
      rw [List.getElem?_reverse (by omega), length_sampleList, getElem?_sampleList (by omega)]
    rw [next_of_not_atMost hlength hside hsample] at h
    exact .inr ⟨rfl, (Option.some.inj h).symm⟩

/-- What has been counted when the left side has come to the sample `i` and the right side to the sample `k`. -/
noncomputable def halvesAt (n : ℕ) (x y : ℕ → ℝ) (minimum maximum : ℝ) (i k : ℕ) : Halves Exact where
  leftArea := finite (∑ l ∈ Finset.range i, y l)
  rightArea := finite (∑ l ∈ Finset.Ico k n, y l)
  leftX := finite (if i = 0 then minimum else x (i - 1))
  rightX := finite (if k = n then maximum else x k)

/-- The sides have counted different samples, the left one from the first and the right one from the last on, and
the left one began. -/
structure Counted (n : ℕ) (x y : ℕ → ℝ) (minimum maximum : ℝ) (s : Sweep Exact) : Prop where
  within : s.left + s.right ≤ n
  begins : s.left = 0 → s.right = 0
  halves : s.halves = halvesAt n x y minimum maximum s.left (n - s.right)

theorem counted_start (n : ℕ) (x y : ℕ → ℝ) (minimum maximum : ℝ) :
    Counted n x y minimum maximum (start (finite minimum) (finite maximum)) where
  within := Nat.zero_le n
  begins _ := rfl
  halves := by simp [start, halvesAt]

/-- No sample is counted twice. -/
theorem Counted.next (hs : Counted n x y minimum maximum s) (h : s.next (sampleList n x y) = some t) :
    Counted n x y minimum maximum t := by
  obtain ⟨hopen, ⟨-, rfl⟩ | ⟨hside, rfl⟩⟩ := cases_of_next h
  · refine ⟨by simp only [countLeft]; omega, fun hzero => absurd hzero (Nat.succ_ne_zero _), ?_⟩
    simp only [countLeft, hs.halves, halvesAt, Finset.sum_range_succ, finite_add, Nat.succ_ne_zero, if_false,
      Nat.add_sub_cancel]
  · -- the left side is the first one to count, because both areas are zero then
    have hbegun : s.left ≠ 0 := by
      intro hzero
      simp only [hs.halves, halvesAt, hzero, hs.begins hzero, atMost_finite] at hside
      simp [epsilon_pos] at hside
    have hlast : n - (s.right + 1) + 1 = n - s.right := by omega
    have hindex : n - 1 - s.right = n - (s.right + 1) := by omega
    refine ⟨by simp only [countRight]; omega, fun hzero => absurd hzero hbegun, ?_⟩
    simp only [countRight, hs.halves, halvesAt, hindex, finite_add]
    rw [Finset.sum_eq_sum_Ico_succ_bot (by omega : n - (s.right + 1) < n), hlast, add_comm (y _),
      if_neg (by omega : ¬n - (s.right + 1) = n)]

/-! ## §3 How far the areas are apart -/

/-- The areas of both sides differ by no more than one degree and the tolerance. -/
def Balanced (top : ℝ) (s : Sweep Exact) : Prop :=
  ∃ a b, s.halves.leftArea = finite a ∧ s.halves.rightArea = finite b ∧ |a - b| ≤ top + epsilon

theorem balanced_start (htop : 0 ≤ top) (minimum maximum : Exact) : Balanced top (start minimum maximum) := by
  refine ⟨0, 0, literal_zero, literal_zero, ?_⟩
  rw [sub_self, abs_zero]
  linarith [epsilon_pos]

/-- The side whose area is smaller grows. -/
theorem Balanced.next (hy : ∀ i < n, 0 ≤ y i ∧ y i ≤ top) (hs : Balanced top s)
    (h : s.next (sampleList n x y) = some t) : Balanced top t := by
  obtain ⟨a, b, ha, hb, hab⟩ := hs
  obtain ⟨hlower, hupper⟩ := abs_le.1 hab
  obtain ⟨hopen, ⟨hside, rfl⟩ | ⟨hside, rfl⟩⟩ := cases_of_next h
  · obtain ⟨hnonneg, hle⟩ := hy s.left (by omega)
    rw [ha, hb, atMost_finite, decide_eq_true_eq] at hside
    refine ⟨a + y s.left, b, by simp only [countLeft, ha, finite_add], hb, abs_le.2 ⟨by linarith, by linarith⟩⟩
  · obtain ⟨hnonneg, hle⟩ := hy (n - 1 - s.right) (by omega)
    rw [ha, hb, atMost_finite, decide_eq_false_iff_not, not_lt] at hside
    have hpos := epsilon_pos
    exact ⟨a, b + y (n - 1 - s.right), ha, by simp only [countRight, hb, finite_add],
      abs_le.2 ⟨by linarith, by linarith⟩⟩

/-- The rounds of a bisection over real samples: the ends meet at one index. -/
theorem exists_run (hn : 1 ≤ n) (x y : ℕ → ℝ) (minimum maximum : ℝ) :
    ∃ k, 1 ≤ k ∧ k ≤ n ∧
      run (sampleList n x y) n (start (finite minimum) (finite maximum)) =
        some ⟨k, n - k, halvesAt n x y minimum maximum k k⟩ ∧
      Halves.count ⟨0.0, 0.0, finite minimum, finite maximum⟩ n (sampleList n x y) (sampleList n x y).reverse =
        halvesAt n x y minimum maximum k k := by
  have hlength : (start (finite minimum) (finite maximum)).left + (start (finite minimum) (finite maximum)).right + n =
      (sampleList n x y).length := by simp [start]
  obtain ⟨i, j, hij, hrun⟩ := run_eq_count hlength
  rw [length_sampleList] at hij
  have hcounted := invariant_of_run (fun _ _ => Counted.next) (counted_start n x y minimum maximum) hrun
  have hbegun : i ≠ 0 := fun hzero => by
    have := hcounted.begins hzero
    simp only at this
    omega
  obtain rfl : j = n - i := by omega
  have hhalves := hcounted.halves
  simp only [show n - (n - i) = i by omega] at hhalves
  rw [hhalves] at hrun
  exact ⟨i, by omega, by omega, hrun, hhalves⟩

end Counted

end Sweep

/-! ## §4 The point of a bisection -/

namespace Exact

/-- The point between two positions, each weighted by the area on the side of the other, or the middle of the range
where there is no area to speak of. -/
noncomputable def balancePoint (minimum maximum a b p q : ℝ) : ℝ :=
  if |a + b| < epsilon then half * (minimum + maximum) else (a * q + b * p) / (a + b)

theorem balancePoint_mem_uIcc {a b : ℝ} (ha : 0 ≤ a) (hb : 0 ≤ b) (hab : epsilon ≤ a + b)
    (minimum maximum p q : ℝ) : balancePoint minimum maximum a b p q ∈ Set.uIcc p q := by
  have hpos : 0 < a + b := epsilon_pos.trans_le hab
  have hfar : ¬|a + b| < epsilon := by rwa [abs_of_pos hpos, not_lt]
  rw [balancePoint, if_neg hfar, ← segment_eq_uIcc]
  refine ⟨b / (a + b), a / (a + b), div_nonneg hb hpos.le, div_nonneg ha hpos.le, ?_, ?_⟩
  · rw [← add_div, add_comm b a, div_self hpos.ne']
  · rw [smul_eq_mul, smul_eq_mul]
    ring

/-- The point lies in a range that has both positions. -/
theorem balancePoint_mem {minimum maximum a b p q : ℝ} (ha : 0 ≤ a) (hb : 0 ≤ b)
    (hp : p ∈ Set.Icc minimum maximum) (hq : q ∈ Set.Icc minimum maximum) :
    balancePoint minimum maximum a b p q ∈ Set.Icc minimum maximum := by
  have hrange := hp.1.trans hp.2
  obtain hab | hab := le_or_gt epsilon (a + b)
  · exact Set.uIcc_subset_Icc hp hq (balancePoint_mem_uIcc ha hb hab minimum maximum p q)
  · have hsmall : |a + b| < epsilon := by rwa [abs_of_nonneg (add_nonneg ha hb)]
    rw [balancePoint, if_pos hsmall]
    exact half_mul_add_mem ⟨le_rfl, hrange⟩ ⟨hrange, le_rfl⟩

theorem bisector_of_count {ss : List (Exact × Exact)} {minimum maximum a b p q : ℝ}
    (h : Halves.count ⟨0.0, 0.0, finite minimum, finite maximum⟩ ss.length ss ss.reverse =
      ⟨finite a, finite b, finite p, finite q⟩) :
    bisector (finite minimum) (finite maximum) ss = finite (balancePoint minimum maximum a b p q) := by
  have hpos := epsilon_pos
  unfold bisector balancePoint
  simp only [h, finite_add, negligible_finite, middle_finite, decide_eq_true_eq, finite_mul]
  split
  · rfl
  next hfar =>
    have hne : a + b ≠ 0 := fun hzero => by
      rw [hzero, abs_zero] at hfar
      exact hfar hpos
    exact finite_div hne

/-- A bisection ends after one round for each sample, with the samples up to an index on the left and those from it
on on the right. The areas of both sides then differ by no more than the greatest degree and the tolerance, and the
point of the bisection lies between the last positions of both sides. -/
theorem bisector_splits {n : ℕ} (hn : 1 ≤ n) (x y : ℕ → ℝ) (minimum maximum : ℝ) {top : ℝ}
    (hy : ∀ i < n, 0 ≤ y i) (htop : IsGreatest (y '' Set.Iio n) top) :
    ∃ k s, 1 ≤ k ∧ k ≤ n ∧
      Sweep.run (sampleList n x y) n (Sweep.start (finite minimum) (finite maximum)) = some s ∧
      s.next (sampleList n x y) = none ∧
      s.left = k ∧ s.right = n - k ∧
      s.halves.leftArea = finite (∑ i ∈ Finset.range k, y i) ∧
      s.halves.rightArea = finite (∑ i ∈ Finset.Ico k n, y i) ∧
      s.halves.leftX = finite (x (k - 1)) ∧
      s.halves.rightX = finite (if k = n then maximum else x k) ∧
      |∑ i ∈ Finset.range k, y i - ∑ i ∈ Finset.Ico k n, y i| ≤ top + epsilon ∧
      Halves.count ⟨0.0, 0.0, finite minimum, finite maximum⟩ n (sampleList n x y) (sampleList n x y).reverse =
        s.halves ∧
      (epsilon ≤ ∑ i ∈ Finset.range n, y i →
        ∃ v ∈ Set.uIcc (x (k - 1)) (if k = n then maximum else x k),
          bisector (finite minimum) (finite maximum) (sampleList n x y) = finite v) := by
  obtain ⟨k, hk, hkn, hrun, hcount⟩ := Sweep.exists_run hn x y minimum maximum
  have hdegrees : ∀ i < n, 0 ≤ y i ∧ y i ≤ top := fun i hi => ⟨hy i hi, htop.2 ⟨i, hi, rfl⟩⟩
  have hnonneg : 0 ≤ top := (hdegrees 0 hn).1.trans (hdegrees 0 hn).2
  obtain ⟨a, b, ha, hb, hab⟩ := Sweep.invariant_of_run (fun _ _ => Sweep.Balanced.next hdegrees)
    (Sweep.balanced_start hnonneg (finite minimum) (finite maximum)) hrun
  obtain rfl := finite_inj.1 ha
  obtain rfl := finite_inj.1 hb
  have hfirst : (if k = 0 then minimum else x (k - 1)) = x (k - 1) := if_neg (by omega)
  refine ⟨k, _, hk, hkn, hrun, Sweep.next_eq_none _ ?_, rfl, rfl, rfl, rfl, congrArg finite hfirst, rfl, hab, hcount,
    fun harea => ?_⟩
  · simp only [length_sampleList]
    omega
  · have hleft : 0 ≤ ∑ i ∈ Finset.range k, y i :=
      Finset.sum_nonneg fun i hi => hy i ((Finset.mem_range.1 hi).trans_le hkn)
    have hright : 0 ≤ ∑ i ∈ Finset.Ico k n, y i := Finset.sum_nonneg fun i hi => hy i (Finset.mem_Ico.1 hi).2
    have htotal := Finset.sum_range_add_sum_Ico y hkn
    have hpoint : bisector (finite minimum) (finite maximum) (sampleList n x y) = _ :=
      bisector_of_count (by rw [length_sampleList]; exact hcount)
    rw [hfirst] at hpoint
    exact ⟨_, balancePoint_mem_uIcc hleft hright (by rwa [htotal]) minimum maximum _ _, hpoint⟩

/-- The bisection of three samples, the first of which has no area. -/
theorem bisector_splits_rising :
    ∃ k s, 1 ≤ k ∧ k ≤ 3 ∧
      Sweep.run (sampleList 3 (fun i => i) fun i => i) 3 (Sweep.start (finite 0) (finite 3)) = some s ∧
      s.left = k ∧ s.right = 3 - k ∧
      ∃ v ∈ Set.uIcc ((k - 1 : ℕ) : ℝ) (if k = 3 then 3 else k),
        bisector (finite 0) (finite 3) (sampleList 3 (fun i => i) fun i => i) = finite v := by
  have htop : IsGreatest ((fun i : ℕ => (i : ℝ)) '' Set.Iio 3) 2 := by
    refine ⟨⟨2, by simp, by simp⟩, ?_⟩
    rintro _ ⟨i, hi, rfl⟩
    show (i : ℝ) ≤ 2
    exact_mod_cast Nat.lt_succ_iff.1 hi
  have harea : epsilon ≤ ∑ i ∈ Finset.range 3, (i : ℝ) := by
    rw [Finset.sum_range_succ, Finset.sum_range_succ, Finset.sum_range_one]
    norm_num [epsilon]
  obtain ⟨k, s, hk, hkn, hrun, -, hleft, hright, -, -, -, -, -, -, hpoint⟩ :=
    bisector_splits (n := 3) (by omega) (fun i => i) (fun i => i) 0 3 (fun i _ => i.cast_nonneg) htop
  exact ⟨k, s, hk, hkn, hrun, hleft, hright, hpoint harea⟩

end Exact

end FuzzyInference
