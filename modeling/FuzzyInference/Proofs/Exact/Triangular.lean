import FuzzyInference.Proofs.Exact.Duality

/-!
# Triangular norms

A triangular norm joins two degrees to a degree that is not above either of them. It is commutative and
associative, grows with both operands, is zero at zero and leaves a degree as it is at one. A triangular conorm
is what complements make of such a norm: it is not below either operand, one at one, and leaves a degree as it is
at zero.

All T-norms and, the plain sum apart, all S-norms are of these two kinds, in spite of the quotients that have no
value at a corner and of the formulas that change within the tolerance of a bound. One thing is lost to the
tolerance: the nilpotent minimum takes degrees below it to zero also at one, and the nilpotent maximum takes
degrees that close to one to one also at zero.

The plan of this module:

* the laws, for operations on the unit interval;
* T-norms on real numbers: associativity by duality, growth, and their values at zero and one;
* S-norms, as complements of T-norms;
* all norms.

## Main statements

* `TNorm.real_mono`, `SNorm.real_mono`: norms grow with both operands
* `TNorm.isTriangular`, `SNorm.isTriangular`: norms satisfy the laws
* `triangular_norms`: what is computed on degrees satisfies the laws
-/

namespace FuzzyInference

open Scalar Exact

/-! ## §1 The laws -/

/-- On degrees, the operation on exact scalars is never refused and computes that of the unit interval. -/
def ComputesOnDegrees (op : Exact → Exact → Except Fault Exact)
    (f : unitInterval → unitInterval → unitInterval) : Prop :=
  ∀ x y : unitInterval, op (finite x) (finite y) = .ok (finite (f x y))

/-- What triangular norms and conorms have in common. -/
structure IsMonotoneSemigroup (f : unitInterval → unitInterval → unitInterval) : Prop where
  comm : ∀ x y, f x y = f y x
  assoc : ∀ x y z, f (f x y) z = f x (f y z)
  /-- The operation grows with both operands. -/
  mono : ∀ {x x' y y'}, x ≤ x' → y ≤ y' → f x y ≤ f x' y'

/-- A triangular norm, of which one is neutral up to the tolerance. -/
structure IsTriangularNorm (f : unitInterval → unitInterval → unitInterval) : Prop
    extends IsMonotoneSemigroup f where
  le_min : ∀ x y, f x y ≤ min x y
  zero : ∀ x, f 0 x = 0
  one : ∀ x, |(f 1 x : ℝ) - x| < epsilon

/-- A triangular conorm, of which zero is neutral up to the tolerance. -/
structure IsTriangularConorm (f : unitInterval → unitInterval → unitInterval) : Prop
    extends IsMonotoneSemigroup f where
  max_le : ∀ x y, max x y ≤ f x y
  one : ∀ x, f 1 x = 1
  zero : ∀ x, |(f 0 x : ℝ) - x| < epsilon

/-! ## §2 T-norms -/

namespace TNorm

variable {t : TNorm} {a a' b b' c : ℝ}

theorem exists_dual (t : TNorm) : ∃ s, Dual t s := by
  cases t with
  | minimum => exact ⟨_, .maximum⟩
  | algebraicProduct => exact ⟨_, .algebraic⟩
  | boundedDifference => exact ⟨_, .bounded⟩
  | drasticProduct => exact ⟨_, .drastic⟩
  | einsteinProduct => exact ⟨_, .einstein⟩
  | hamacherProduct => exact ⟨_, .hamacher⟩
  | nilpotentMinimum => exact ⟨_, .nilpotent⟩

/-- T-norms are commutative, also outside the unit interval. -/
theorem real_comm (t : TNorm) (a b : ℝ) : t.real a b = t.real b a := by
  cases t with
  | einsteinProduct => simp only [real, mul_comm b a, mul_comm (1 - b)]
  | _ => simp only [real, max_comm b a, min_comm b a, mul_comm b a, add_comm b a]

/-- T-norms are associative, since the S-norms of which they are the complements are. -/
theorem real_assoc (t : TNorm) (ha : a ∈ Set.Icc (0 : ℝ) 1) (hb : b ∈ Set.Icc (0 : ℝ) 1)
    (hc : c ∈ Set.Icc (0 : ℝ) 1) : t.real (t.real a b) c = t.real a (t.real b c) := by
  obtain ⟨s, h⟩ := t.exists_dual
  have hcomplement : ∀ x ∈ Set.Icc (0 : ℝ) 1, 1 - x ∈ s.domain := by
    intro x hx
    exact s.mem_domain ⟨sub_nonneg.2 hx.2, sub_le_self 1 hx.1⟩
  -- the complement of what is joined is what the S-norm makes of the complements
  have hleft : 1 - t.real a b = s.real (1 - a) (1 - b) := by rw [h.real_tNorm ha.2 hb.2, sub_sub_cancel]
  have hright : 1 - t.real b c = s.real (1 - b) (1 - c) := by rw [h.real_tNorm hb.2 hc.2, sub_sub_cancel]
  rw [h.real_tNorm (t.real_mem ha hb).2 hc.2, h.real_tNorm ha.2 (t.real_mem hb hc).2, hleft, hright,
    SNorm.real_assoc (hcomplement a ha) (hcomplement b hb) (hcomplement c hc)]

/-! ### Growth -/

/-- The divisor of the Einstein product falls when a factor grows. -/
theorem real_mono_einsteinProduct (ha' : a' ≤ 1) (hb0 : 0 ≤ b) (hb1 : b ≤ 1) (h : a ≤ a') :
    einsteinProduct.real a b ≤ einsteinProduct.real a' b := by
  have hb : 0 ≤ 1 - b := sub_nonneg.2 hb1
  have hpos' : 0 < 1 + (1 - a') * (1 - b) := by
    have := mul_nonneg (sub_nonneg.2 ha') hb
    linarith
  have hpos : 0 < 1 + (1 - a) * (1 - b) := by
    have := mul_nonneg (sub_nonneg.2 (h.trans ha')) hb
    linarith
  simp only [real]
  rw [div_le_div_iff₀ hpos hpos']
  -- the difference of the two sides is a product of three numbers that are not negative
  have hdifference : a' * b * (1 + (1 - a) * (1 - b)) - a * b * (1 + (1 - a') * (1 - b)) =
      (a' - a) * b * (1 + (1 - b)) := by ring
  have hnonneg : 0 ≤ (a' - a) * b * (1 + (1 - b)) :=
    mul_nonneg (mul_nonneg (sub_nonneg.2 h) hb0) (by linarith)
  linarith

/-- The divisor of the Hamacher product grows with a factor, but not as fast as the product does. -/
theorem real_mono_hamacherProduct (ha0 : 0 ≤ a) (ha' : a' ≤ 1) (hb0 : 0 ≤ b) (hb1 : b ≤ 1) (h : a ≤ a') :
    hamacherProduct.real a b ≤ hamacherProduct.real a' b := by
  have hnonneg : 0 ≤ hamacherProduct.real a' b := (real_mem _ ⟨ha0.trans h, ha'⟩ ⟨hb0, hb1⟩).1
  have hdivisor : ∀ x ∈ Set.Icc (0 : ℝ) 1, 0 ≤ x + b - x * b := by
    intro x hx
    nlinarith [mul_nonneg hx.1 (sub_nonneg.2 hb1)]
  rcases (hdivisor a ⟨ha0, h.trans ha'⟩).eq_or_lt with hzero | hpos
  · -- without a divisor the product is zero
    simp only [real] at hnonneg ⊢
    rw [← hzero, div_zero]
    exact hnonneg
  · have hpos' : 0 < a' + b - a' * b := by nlinarith [mul_nonneg (sub_nonneg.2 h) (sub_nonneg.2 hb1)]
    simp only [real]
    rw [div_le_div_iff₀ hpos hpos']
    have hdifference : a' * b * (a + b - a * b) - a * b * (a' + b - a' * b) = (a' - a) * (b * b) := by ring
    have := mul_nonneg (sub_nonneg.2 h) (mul_nonneg hb0 hb0)
    linarith

theorem real_mono_left (t : TNorm) (ha : a ∈ Set.Icc (0 : ℝ) 1) (ha' : a' ∈ Set.Icc (0 : ℝ) 1)
    (hb : b ∈ Set.Icc (0 : ℝ) 1) (h : a ≤ a') : t.real a b ≤ t.real a' b := by
  have hmin : min a b ≤ min a' b := min_le_min_right b h
  have hmin' : 0 ≤ min a' b := le_min ha'.1 hb.1
  cases t with
  | minimum => exact hmin
  | algebraicProduct => exact mul_le_mul_of_nonneg_right h hb.1
  | boundedDifference =>
    apply max_le_max_left
    linarith
  | drasticProduct =>
    have hmax : max a b ≤ max a' b := max_le_max_right b h
    simp only [real]
    -- a maximum near one stays near one when an operand grows
    split_ifs with hnear hnear'
    · exact hmin
    · exact absurd (hnear.trans_le hmax) hnear'
    · exact hmin'
    · exact le_refl 0
  | einsteinProduct => exact real_mono_einsteinProduct ha'.2 hb.1 hb.2 h
  | hamacherProduct => exact real_mono_hamacherProduct ha.1 ha'.2 hb.1 hb.2 h
  | nilpotentMinimum =>
    simp only [real]
    split_ifs with hlarge hlarge'
    · exact hmin
    · exact absurd (by linarith) hlarge'
    · exact hmin'
    · exact le_refl 0

/-- T-norms grow with both operands. -/
theorem real_mono (t : TNorm) (ha : a ∈ Set.Icc (0 : ℝ) 1) (ha' : a' ∈ Set.Icc (0 : ℝ) 1)
    (hb : b ∈ Set.Icc (0 : ℝ) 1) (hb' : b' ∈ Set.Icc (0 : ℝ) 1) (h : a ≤ a') (k : b ≤ b') :
    t.real a b ≤ t.real a' b' :=
  calc t.real a b
    _ ≤ t.real a' b := t.real_mono_left ha ha' hb h
    _ = t.real b a' := t.real_comm a' b
    _ ≤ t.real b' a' := t.real_mono_left hb hb' ha' k
    _ = t.real a' b' := t.real_comm b' a'

/-! ### Zero and one -/

theorem real_zero (t : TNorm) (hb : b ∈ Set.Icc (0 : ℝ) 1) : t.real 0 b = 0 := by
  have hmin : min 0 b = 0 := min_eq_left hb.1
  cases t with
  | boundedDifference =>
    apply max_eq_left
    linarith [hb.2]
  | _ => simp [real, hmin]

/-- One is neutral; only the nilpotent minimum asks for more than a sum of one. -/
theorem real_one (ht : t ≠ .nilpotentMinimum) (hb : b ∈ Set.Icc (0 : ℝ) 1) : t.real 1 b = b := by
  have hmin : min 1 b = b := min_eq_right hb.2
  have hmax : max 1 b = 1 := max_eq_left hb.2
  cases t with
  | nilpotentMinimum => exact absurd rfl ht
  | drasticProduct => simp [real, hmin, hmax, epsilon_pos]
  | boundedDifference => simp [real, hb.1]
  | _ => simp [real, hmin]

/-- Under the nilpotent minimum one leaves the degrees that the tolerance can tell from zero. -/
theorem real_one_nilpotentMinimum (hb : b ≤ 1) :
    nilpotentMinimum.real 1 b = if epsilon ≤ b then b else 0 := by
  simp only [real, min_eq_right hb, add_le_add_iff_left]

theorem abs_real_one_sub_lt (t : TNorm) (hb : b ∈ Set.Icc (0 : ℝ) 1) : |t.real 1 b - b| < epsilon := by
  by_cases ht : t = .nilpotentMinimum
  · subst ht
    rw [real_one_nilpotentMinimum hb.2]
    split_ifs with hlarge
    · simpa using epsilon_pos
    · rw [zero_sub, abs_neg, abs_of_nonneg hb.1]
      exact not_le.1 hlarge
  · rw [real_one ht hb]
    simpa using epsilon_pos

/-- One raises no degree. -/
theorem real_one_le (t : TNorm) (hb : b ∈ Set.Icc (0 : ℝ) 1) : t.real 1 b ≤ b := by
  by_cases ht : t = .nilpotentMinimum
  · subst ht
    rw [real_one_nilpotentMinimum hb.2]
    split_ifs
    · exact le_refl b
    · exact hb.1
  · exact (real_one ht hb).le

/-- A T-norm is not above the right operand, since it grows with the left one up to one. -/
theorem real_le_right (t : TNorm) (ha : a ∈ Set.Icc (0 : ℝ) 1) (hb : b ∈ Set.Icc (0 : ℝ) 1) :
    t.real a b ≤ b :=
  (t.real_mono_left ha ⟨zero_le_one, le_refl 1⟩ hb ha.2).trans (t.real_one_le hb)

theorem real_le_min (t : TNorm) (ha : a ∈ Set.Icc (0 : ℝ) 1) (hb : b ∈ Set.Icc (0 : ℝ) 1) :
    t.real a b ≤ min a b := by
  apply le_min
  · rw [t.real_comm]
    exact t.real_le_right hb ha
  · exact t.real_le_right ha hb

/-! ### The laws -/

/-- The norm as an operation on the unit interval. -/
noncomputable def onDegrees (t : TNorm) (x y : unitInterval) : unitInterval :=
  ⟨t.real x y, t.real_mem x.2 y.2⟩

theorem computes_onDegrees (t : TNorm) : ComputesOnDegrees t.compute t.onDegrees :=
  fun x y => t.compute_finite x.2 y.2

theorem isTriangular (t : TNorm) : IsTriangularNorm t.onDegrees where
  comm x y := Subtype.ext (t.real_comm x y)
  assoc x y z := Subtype.ext (t.real_assoc x.2 y.2 z.2)
  mono {x x' y y'} hx hy := t.real_mono x.2 x'.2 y.2 y'.2 hx hy
  le_min x y := t.real_le_min x.2 y.2
  zero x := Subtype.ext (t.real_zero x.2)
  one x := t.abs_real_one_sub_lt x.2

/-- One is neutral, except under the nilpotent minimum. -/
theorem one_neutral_iff (t : TNorm) : (∀ x, t.onDegrees 1 x = x) ↔ t ≠ .nilpotentMinimum := by
  constructor
  · rintro h rfl
    -- half the tolerance is a degree that the norm takes to zero
    have hpos := epsilon_pos
    have hsmall := epsilon_lt_half
    have hvalue := congrArg Subtype.val (h ⟨epsilon / 2, by linarith, by linarith⟩)
    have hreal : nilpotentMinimum.real 1 (epsilon / 2) = epsilon / 2 := hvalue
    rw [real_one_nilpotentMinimum (by linarith), if_neg (by linarith)] at hreal
    linarith
  · intro ht x
    exact Subtype.ext (real_one ht x.2)

end TNorm

/-! ## §3 S-norms -/

namespace SNorm

variable {s : SNorm} {a a' b b' : ℝ}

theorem exists_dual (hs : s ≠ .unboundedSum) : ∃ t, Dual t s := by
  cases s with
  | maximum => exact ⟨_, .maximum⟩
  | algebraicSum => exact ⟨_, .algebraic⟩
  | boundedSum => exact ⟨_, .bounded⟩
  | normalizedSum => exact ⟨_, .normalized⟩
  | drasticSum => exact ⟨_, .drastic⟩
  | einsteinSum => exact ⟨_, .einstein⟩
  | hamacherSum => exact ⟨_, .hamacher⟩
  | nilpotentMaximum => exact ⟨_, .nilpotent⟩
  | unboundedSum => exact absurd rfl hs

/-- S-norms grow with both operands: the complements fall, and so does what the T-norm makes of them. -/
theorem real_mono (hs : s ≠ .unboundedSum) (ha : a ∈ Set.Icc (0 : ℝ) 1) (ha' : a' ∈ Set.Icc (0 : ℝ) 1)
    (hb : b ∈ Set.Icc (0 : ℝ) 1) (hb' : b' ∈ Set.Icc (0 : ℝ) 1) (h : a ≤ a') (k : b ≤ b') :
    s.real a b ≤ s.real a' b' := by
  obtain ⟨t, hdual⟩ := exists_dual hs
  have hcomplement : ∀ x ∈ Set.Icc (0 : ℝ) 1, 1 - x ∈ Set.Icc (0 : ℝ) 1 :=
    fun x hx => ⟨sub_nonneg.2 hx.2, sub_le_self 1 hx.1⟩
  rw [hdual.real_sNorm ha.1 hb.1, hdual.real_sNorm ha'.1 hb'.1]
  apply sub_le_sub_left
  exact t.real_mono (hcomplement _ ha') (hcomplement _ ha) (hcomplement _ hb') (hcomplement _ hb)
    (sub_le_sub_left h 1) (sub_le_sub_left k 1)

theorem max_le_real (hs : s ≠ .unboundedSum) (ha : a ∈ Set.Icc (0 : ℝ) 1) (hb : b ∈ Set.Icc (0 : ℝ) 1) :
    max a b ≤ s.real a b := by
  obtain ⟨t, hdual⟩ := exists_dual hs
  have hle := t.real_le_min (a := 1 - a) (b := 1 - b) ⟨sub_nonneg.2 ha.2, sub_le_self 1 ha.1⟩
    ⟨sub_nonneg.2 hb.2, sub_le_self 1 hb.1⟩
  rw [hdual.real_sNorm ha.1 hb.1, Dual.max_eq_one_sub]
  exact sub_le_sub_left hle 1

theorem real_one (hs : s ≠ .unboundedSum) (hb : b ∈ Set.Icc (0 : ℝ) 1) : s.real 1 b = 1 := by
  obtain ⟨t, hdual⟩ := exists_dual hs
  rw [hdual.real_sNorm zero_le_one hb.1, sub_self, t.real_zero ⟨sub_nonneg.2 hb.2, sub_le_self 1 hb.1⟩,
    sub_zero]

/-- What zero leaves of a degree is the complement of what one leaves of its complement. -/
theorem real_zero_sub {t : TNorm} (hdual : Dual t s) (hb : 0 ≤ b) :
    s.real 0 b - b = -(t.real 1 (1 - b) - (1 - b)) := by
  rw [hdual.real_sNorm (le_refl 0) hb, sub_zero]
  ring

theorem abs_real_zero_sub_lt (hs : s ≠ .unboundedSum) (hb : b ∈ Set.Icc (0 : ℝ) 1) :
    |s.real 0 b - b| < epsilon := by
  obtain ⟨t, hdual⟩ := exists_dual hs
  rw [real_zero_sub hdual hb.1, abs_neg]
  exact t.abs_real_one_sub_lt ⟨sub_nonneg.2 hb.2, sub_le_self 1 hb.1⟩

/-- S-norms take degrees to degrees, the plain sum apart. -/
theorem real_mem_unitInterval (hs : s ≠ .unboundedSum) (ha : a ∈ Set.Icc (0 : ℝ) 1)
    (hb : b ∈ Set.Icc (0 : ℝ) 1) : s.real a b ∈ unitInterval := by
  show s.real a b ∈ Set.Icc 0 1
  rw [← domain_eq hs]
  exact real_mem (s.mem_domain ha) (s.mem_domain hb)

/-- The norm as an operation on the unit interval. -/
noncomputable def onDegrees (hs : s ≠ .unboundedSum) (x y : unitInterval) : unitInterval :=
  ⟨s.real x y, real_mem_unitInterval hs x.2 y.2⟩

theorem computes_onDegrees (hs : s ≠ .unboundedSum) : ComputesOnDegrees s.compute (onDegrees hs) :=
  fun x y => compute_finite (s.mem_domain x.2) (s.mem_domain y.2)

theorem isTriangular (hs : s ≠ .unboundedSum) : IsTriangularConorm (onDegrees hs) where
  comm x y := Subtype.ext (s.real_comm x y)
  assoc x y z := Subtype.ext (real_assoc (s.mem_domain x.2) (s.mem_domain y.2) (s.mem_domain z.2))
  mono {x x' y y'} hx hy := real_mono hs x.2 x'.2 y.2 y'.2 hx hy
  max_le x y := max_le_real hs x.2 y.2
  one x := Subtype.ext (real_one hs x.2)
  zero x := abs_real_zero_sub_lt hs x.2

/-- Zero is neutral, except under the nilpotent maximum. -/
theorem zero_neutral_iff (hs : s ≠ .unboundedSum) :
    (∀ x, onDegrees hs 0 x = x) ↔ s ≠ .nilpotentMaximum := by
  constructor
  · rintro h rfl
    -- a degree that falls short of one by half the tolerance is taken to one
    have hpos := epsilon_pos
    have hsmall := epsilon_lt_half
    have hvalue := congrArg Subtype.val (h ⟨1 - epsilon / 2, by linarith, by linarith⟩)
    have hreal : nilpotentMaximum.real 0 (1 - epsilon / 2) = 1 - epsilon / 2 := hvalue
    rw [real, if_neg (by linarith)] at hreal
    linarith
  · intro hne x
    obtain ⟨t, hdual⟩ := exists_dual hs
    have ht : t ≠ .nilpotentMinimum := by
      rintro rfl
      cases hdual
      exact hne rfl
    have hsame := real_zero_sub hdual x.2.1
    rw [TNorm.real_one ht ⟨sub_nonneg.2 x.2.2, sub_le_self 1 x.2.1⟩, sub_self, neg_zero] at hsame
    exact Subtype.ext (sub_eq_zero.1 hsame)

end SNorm

/-! ## §4 All norms -/

/-- Norms are norms.

* On degrees, every T-norm computes a triangular norm, and every S-norm but the plain sum a triangular conorm.
* One is neutral under all of the former but the nilpotent minimum, and zero under all of the latter but the
  nilpotent maximum; these two are off by less than the tolerance, as the laws say.
* The plain sum is commutative and associative on all real numbers. -/
theorem triangular_norms :
    (∀ t : TNorm, ∃ f, ComputesOnDegrees t.compute f ∧ IsTriangularNorm f ∧
      ((∀ x, f 1 x = x) ↔ t ≠ .nilpotentMinimum)) ∧
    (∀ s : SNorm, s ≠ .unboundedSum → ∃ f, ComputesOnDegrees s.compute f ∧ IsTriangularConorm f ∧
      ((∀ x, f 0 x = x) ↔ s ≠ .nilpotentMaximum)) ∧
    ∃ f : ℝ → ℝ → ℝ, (∀ x y, SNorm.unboundedSum.compute (finite x) (finite y) = .ok (finite (f x y))) ∧
      (∀ x y, f x y = f y x) ∧ ∀ x y z, f (f x y) z = f x (f y z) := by
  refine ⟨fun t => ?_, fun s hs => ?_, ?_⟩
  · exact ⟨t.onDegrees, t.computes_onDegrees, t.isTriangular, t.one_neutral_iff⟩
  · exact ⟨SNorm.onDegrees hs, SNorm.computes_onDegrees hs, SNorm.isTriangular hs, SNorm.zero_neutral_iff hs⟩
  · -- all real numbers are in the domain of the plain sum
    have hdomain : ∀ x, x ∈ SNorm.unboundedSum.domain := fun _ => trivial
    refine ⟨SNorm.unboundedSum.real, fun x y => SNorm.compute_finite (hdomain x) (hdomain y),
      SNorm.unboundedSum.real_comm, fun x y z => ?_⟩
    exact SNorm.real_assoc (hdomain x) (hdomain y) (hdomain z)

/-- The nilpotent maximum is a triangular conorm, but zero is not neutral under it. -/
theorem triangular_norms_nilpotentMaximum :
    SNorm.nilpotentMaximum ≠ .unboundedSum ∧
    ∃ f, ComputesOnDegrees SNorm.nilpotentMaximum.compute f ∧ IsTriangularConorm f ∧ ¬∀ x, f 0 x = x := by
  have hne : SNorm.nilpotentMaximum ≠ .unboundedSum := by decide
  obtain ⟨f, hf, hlaws, hneutral⟩ := triangular_norms.2.1 .nilpotentMaximum hne
  exact ⟨hne, f, hf, hlaws, fun h => hneutral.1 h rfl⟩

end FuzzyInference
