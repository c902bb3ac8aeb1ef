import FuzzyInference.FuzzySet.Aggregated
import FuzzyInference.Hedge
import FuzzyInference.Proofs.Exact.Scalars
import FuzzyInference.Proofs.Value

/-!
# Degrees in exact arithmetic

A *degree* is a number between zero and one. Read over exact scalars, hedges and norms take degrees to
degrees and are never refused. Two of the S-norms switch between two formulas where their arguments come
within the tolerance of a bound, and two more have a quotient without a value at one corner; all nine are
commutative and associative even so.

The plan of this module:

* degrees, and hedges on them;
* T-norms as operations on real numbers, and S-norms;
* associativity of the S-norms, one by one.

## Main statements

* `Hedge.exists_applyAll`, `TNorm.exists_compute`: hedges and T-norms keep to degrees
* `SNorm.compute_finite`: S-norms as operations on real numbers
* `SNorm.real_comm`, `SNorm.real_assoc`: S-norms are commutative and associative
-/

namespace FuzzyInference

open Scalar Exact Checked

/-! ## §1 Degrees -/

/-- A number between zero and one. -/
def Exact.IsDegree (a : Exact) : Prop := ∃ x ∈ Set.Icc (0 : ℝ) 1, a = finite x

theorem Exact.isDegree_finite {x : ℝ} : (finite x).IsDegree ↔ 0 ≤ x ∧ x ≤ 1 := by
  constructor
  · rintro ⟨y, hy, h⟩
    rw [finite_inj.1 h]
    exact hy
  · intro h
    exact ⟨x, h, rfl⟩

/-- A weight that is a degree takes degrees to degrees. -/
theorem Exact.IsDegree.mul {a b : Exact} (ha : a.IsDegree) (hb : b.IsDegree) : (a * b).IsDegree := by
  obtain ⟨x, ⟨hx0, hx1⟩, rfl⟩ := ha
  obtain ⟨y, ⟨hy0, hy1⟩, rfl⟩ := hb
  rw [finite_mul, isDegree_finite]
  exact ⟨mul_nonneg hx0 hy0, mul_le_one₀ hx1 hy0 hy1⟩

/-! ### Hedges -/

namespace Hedge

/-- The modified degree, as a real number. -/
noncomputable def real : Hedge → ℝ → ℝ
  | any, _ => 1
  | not, x => 1 - x
  -- quotients by one half are doubles
  | extremely, x => if x ≤ half then x * x / half else 1 - (1 - x) * (1 - x) / half
  | seldom, x => if x ≤ half then Real.sqrt (half * x) else 1 - Real.sqrt (half * (1 - x))
  | somewhat, x => Real.sqrt x
  | very, x => x * x

variable {x : ℝ}

/-- A hedge is not refused on a degree: the roots that it takes are roots of degrees. -/
theorem apply_finite (h : Hedge) (hx : x ∈ Set.Icc (0 : ℝ) 1) :
    h.apply (finite x) = .ok (finite (h.real x)) := by
  obtain ⟨hx0, hx1⟩ := hx
  have hhalf : 0 ≤ half := by norm_num [half_eq]
  -- twice a number is its quotient by one half
  have hdouble : ∀ y : ℝ, 2 * y * y = y * y / half := by
    intro y
    rw [half_eq]
    ring
  cases h with
  | any => simp [apply, real]
  | not => simp [apply, real]
  | extremely =>
    simp only [apply, real, literal_half, literal_one, literal_two, finite_le_finite, finite_mul, finite_sub,
      hdouble]
    split
    · rfl
    · rfl
  | seldom =>
    simp only [apply, real, literal_half, literal_one, finite_le_finite, finite_mul, finite_sub]
    split
    · rw [apply_sqrt_finite (mul_nonneg hhalf hx0)]
    · rw [apply_sqrt_finite (mul_nonneg hhalf (sub_nonneg.2 hx1))]
      rfl
  | somewhat => simp [apply, real, hx0]
  | very => simp [apply, real]

theorem real_mem (h : Hedge) (hx : x ∈ Set.Icc (0 : ℝ) 1) : h.real x ∈ Set.Icc (0 : ℝ) 1 := by
  obtain ⟨hx0, hx1⟩ := hx
  cases h with
  | any => exact ⟨zero_le_one, le_refl 1⟩
  | not => exact ⟨sub_nonneg.2 hx1, by simpa [real] using hx0⟩
  | extremely =>
    rw [real, half_eq]
    split
    next hle => exact ⟨by positivity, by nlinarith⟩
    next hlt => exact ⟨by nlinarith, by nlinarith⟩
  | seldom =>
    rw [real, half_eq]
    split
    next hle => exact ⟨Real.sqrt_nonneg _, Real.sqrt_le_one.2 (by linarith)⟩
    next hlt =>
      have hroot : Real.sqrt (1 / 2 * (1 - x)) ≤ 1 := Real.sqrt_le_one.2 (by linarith)
      exact ⟨by linarith, by linarith [Real.sqrt_nonneg (1 / 2 * (1 - x))]⟩
  | somewhat => exact ⟨Real.sqrt_nonneg x, Real.sqrt_le_one.2 hx1⟩
  | very => exact ⟨mul_nonneg hx0 hx0, mul_le_one₀ hx1 hx0 hx1⟩

/-- A chain of hedges takes a degree to a degree. -/
theorem exists_applyAll (hs : List Hedge) {a : Exact} (ha : a.IsDegree) :
    ∃ d, applyAll hs a = .ok d ∧ d.IsDegree := by
  induction hs with
  | nil => exact ⟨a, rfl, ha⟩
  | cons h hs ih =>
    obtain ⟨d, hd, x, hx, rfl⟩ := ih
    refine ⟨finite (h.real x), ?_, h.real x, h.real_mem hx, rfl⟩
    rw [applyAll, hd, ok_bind, h.apply_finite hx]

end Hedge

/-! ## §2 T-norms -/

namespace TNorm

/-- The value of the norm at two degrees, as a real number. -/
noncomputable def real : TNorm → ℝ → ℝ → ℝ
  | minimum, a, b => min a b
  | algebraicProduct, a, b => a * b
  | boundedDifference, a, b => max 0 (a + b - 1)
  | drasticProduct, a, b => if 1 - epsilon < max a b then min a b else 0
  -- the divisor is two without the algebraic sum
  | einsteinProduct, a, b => a * b / (1 + (1 - a) * (1 - b))
  -- a quotient by zero is zero
  | hamacherProduct, a, b => a * b / (a + b - a * b)
  | nilpotentMinimum, a, b => if 1 + epsilon ≤ a + b then min a b else 0

variable {a b : ℝ}

/-- A T-norm on degrees; the divisor of the Einstein product is one at least. -/
theorem compute_finite (t : TNorm) (ha : a ∈ Set.Icc (0 : ℝ) 1) (hb : b ∈ Set.Icc (0 : ℝ) 1) :
    t.compute (finite a) (finite b) = .ok (finite (t.real a b)) := by
  obtain ⟨ha0, ha1⟩ := ha
  obtain ⟨hb0, hb1⟩ := hb
  cases t with
  | minimum => simp [compute, real]
  | algebraicProduct => simp [compute, real]
  | boundedDifference => simp [compute, real]
  | drasticProduct =>
    -- near one is just below it, since no degree exceeds it
    have hnear : |max a b - 1| < epsilon ↔ 1 - epsilon < max a b := by
      rw [abs_of_nonpos (sub_nonpos.2 (max_le ha1 hb1))]
      constructor
      · intro h
        linarith
      · intro h
        linarith
    simp only [compute, real, greatest_finite, least_finite, literal_one, literal_zero, near_finite, hnear,
      decide_eq_true_eq]
    split
    · rfl
    · rfl
  | einsteinProduct =>
    have hcorner : 0 ≤ (1 - a) * (1 - b) := mul_nonneg (sub_nonneg.2 ha1) (sub_nonneg.2 hb1)
    have hdivisor : 2 - (a + b - a * b) = 1 + (1 - a) * (1 - b) := by ring
    have hne : 1 + (1 - a) * (1 - b) ≠ 0 := by positivity
    simp only [compute, real, literal_two, finite_add, finite_mul, finite_sub, hdivisor]
    exact divide_finite hne
  | hamacherProduct =>
    simp only [compute, real, finite_add, finite_mul, finite_sub, literal_zero, finite_beq, decide_eq_true_eq]
    split
    next hzero => rw [hzero, div_zero]
    next hne => rw [finite_div hne]
  | nilpotentMinimum =>
    simp only [compute, real, finite_add, least_finite, literal_one, literal_zero, above_finite,
      decide_eq_true_eq]
    split
    · rfl
    · rfl

theorem real_mem (t : TNorm) (ha : a ∈ Set.Icc (0 : ℝ) 1) (hb : b ∈ Set.Icc (0 : ℝ) 1) :
    t.real a b ∈ Set.Icc (0 : ℝ) 1 := by
  obtain ⟨ha0, ha1⟩ := ha
  obtain ⟨hb0, hb1⟩ := hb
  have hmin : min a b ∈ Set.Icc (0 : ℝ) 1 := ⟨le_min ha0 hb0, (min_le_left a b).trans ha1⟩
  have hzero : (0 : ℝ) ∈ Set.Icc (0 : ℝ) 1 := ⟨le_refl 0, zero_le_one⟩
  have hprod : 0 ≤ a * b := mul_nonneg ha0 hb0
  have hcorner : 0 ≤ (1 - a) * (1 - b) := mul_nonneg (sub_nonneg.2 ha1) (sub_nonneg.2 hb1)
  cases t with
  | minimum => exact hmin
  | algebraicProduct => exact ⟨hprod, mul_le_one₀ ha1 hb0 hb1⟩
  | boundedDifference => exact ⟨le_max_left _ _, max_le zero_le_one (by linarith)⟩
  | drasticProduct =>
    rw [real]
    split
    · exact hmin
    · exact hzero
  | einsteinProduct =>
    have hpos : 0 < 1 + (1 - a) * (1 - b) := by positivity
    exact ⟨div_nonneg hprod hpos.le, (div_le_one hpos).2 (by linarith)⟩
  | hamacherProduct =>
    have hle : a * b ≤ a + b - a * b := by nlinarith
    exact ⟨div_nonneg hprod (hprod.trans hle), div_le_one_of_le₀ hle (hprod.trans hle)⟩
  | nilpotentMinimum =>
    rw [real]
    split
    · exact hmin
    · exact hzero

/-- A T-norm takes degrees to a degree. -/
theorem exists_compute (t : TNorm) {c d : Exact} (hc : c.IsDegree) (hd : d.IsDegree) :
    ∃ e, t.compute c d = .ok e ∧ e.IsDegree := by
  obtain ⟨x, hx, rfl⟩ := hc
  obtain ⟨y, hy, rfl⟩ := hd
  exact ⟨_, t.compute_finite hx hy, _, t.real_mem hx hy, rfl⟩

end TNorm

/-- An implication takes degrees to a degree, and so does the product that stands in for one. -/
theorem exists_implied (implication : Option TNorm) {c d : Exact} (hc : c.IsDegree) (hd : d.IsDegree) :
    ∃ e, implied implication c d = .ok e ∧ e.IsDegree := by
  cases implication with
  | none => exact ⟨c * d, rfl, hc.mul hd⟩
  | some t => exact t.exists_compute hc hd

/-! ## §3 S-norms -/

namespace SNorm

/-- The value of the norm at two degrees, as a real number. -/
noncomputable def real : SNorm → ℝ → ℝ → ℝ
  | maximum, a, b => max a b
  | algebraicSum, a, b => a + b - a * b
  | boundedSum, a, b => min 1 (a + b)
  | normalizedSum, a, b => (a + b) / max 1 (a + b)
  | drasticSum, a, b => if min a b < epsilon then max a b else 1
  | einsteinSum, a, b => (a + b) / (1 + a * b)
  -- two ones have no quotient
  | hamacherSum, a, b => if 1 - a * b = 0 then 1 else (a * (1 - b) + b * (1 - a)) / (1 - a * b)
  | nilpotentMaximum, a, b => if a + b + epsilon ≤ 1 then max a b else 1
  | unboundedSum, a, b => a + b

/-- The numbers that the norm joins: degrees, and for the plain sum all numbers. -/
def domain : SNorm → Set ℝ
  | unboundedSum => Set.univ
  | _ => Set.Icc 0 1

variable {s : SNorm} {a b c : ℝ}

/-- Degrees can be joined by every norm. -/
theorem mem_domain (s : SNorm) (ha : a ∈ Set.Icc (0 : ℝ) 1) : a ∈ s.domain := by
  cases s with
  | unboundedSum => trivial
  | _ => exact ha

/-- An S-norm on degrees, and the plain sum on all numbers. -/
theorem compute_finite (ha : a ∈ s.domain) (hb : b ∈ s.domain) :
    s.compute (finite a) (finite b) = .ok (finite (s.real a b)) := by
  cases s with
  | maximum => simp [compute, real]
  | algebraicSum => simp [compute, real]
  | boundedSum => simp [compute, real]
  | normalizedSum =>
    have hne : max 1 (a + b) ≠ 0 := (zero_lt_one.trans_le (le_max_left 1 (a + b))).ne'
    simp [compute, real, hne]
  | drasticSum =>
    have hnear : |min a b| < epsilon ↔ min a b < epsilon := by
      rw [abs_of_nonneg (le_min ha.1 hb.1)]
    simp only [compute, real, greatest_finite, least_finite, literal_one, literal_zero, near_finite, sub_zero,
      hnear, decide_eq_true_eq]
    split
    · rfl
    · rfl
  | einsteinSum =>
    have hne : 1 + a * b ≠ 0 := by nlinarith [mul_nonneg ha.1 hb.1]
    simp [compute, real, hne]
  | hamacherSum =>
    have hdividend : a + b - 2 * a * b = a * (1 - b) + b * (1 - a) := by ring
    simp only [compute, real, finite_add, finite_mul, finite_sub, literal_zero, literal_one, literal_two,
      finite_beq, decide_eq_true_eq, hdividend]
    split
    next => rfl
    next hne => rw [finite_div hne]
  | nilpotentMaximum =>
    simp only [compute, real, finite_add, greatest_finite, literal_one, above_finite, decide_eq_true_eq]
    split
    · rfl
    · rfl
  | unboundedSum => simp [compute, real]

theorem real_mem (ha : a ∈ s.domain) (hb : b ∈ s.domain) : s.real a b ∈ s.domain := by
  cases s with
  | unboundedSum => trivial
  | maximum => exact ⟨ha.1.trans (le_max_left a b), max_le ha.2 hb.2⟩
  | algebraicSum =>
    obtain ⟨ha0, ha1⟩ := ha
    obtain ⟨hb0, hb1⟩ := hb
    rw [real]
    exact ⟨by nlinarith, by nlinarith⟩
  | boundedSum => exact ⟨le_min zero_le_one (add_nonneg ha.1 hb.1), min_le_left _ _⟩
  | normalizedSum =>
    have hpos : 0 < max 1 (a + b) := zero_lt_one.trans_le (le_max_left 1 (a + b))
    exact ⟨div_nonneg (add_nonneg ha.1 hb.1) hpos.le, (div_le_one hpos).2 (le_max_right 1 (a + b))⟩
  | drasticSum =>
    rw [real]
    split
    · exact ⟨ha.1.trans (le_max_left a b), max_le ha.2 hb.2⟩
    · exact ⟨zero_le_one, le_refl 1⟩
  | einsteinSum =>
    obtain ⟨ha0, ha1⟩ := ha
    obtain ⟨hb0, hb1⟩ := hb
    have hpos : 0 < 1 + a * b := by positivity
    rw [real]
    exact ⟨by positivity, (div_le_one hpos).2 (by nlinarith)⟩
  | hamacherSum =>
    obtain ⟨ha0, ha1⟩ := ha
    obtain ⟨hb0, hb1⟩ := hb
    rw [real]
    split
    next => exact ⟨zero_le_one, le_refl 1⟩
    next hne =>
      have hle : 0 ≤ 1 - a * b := sub_nonneg.2 (mul_le_one₀ ha1 hb0 hb1)
      exact ⟨div_nonneg (by nlinarith) hle, div_le_one_of_le₀ (by nlinarith) hle⟩
  | nilpotentMaximum =>
    rw [real]
    split
    · exact ⟨ha.1.trans (le_max_left a b), max_le ha.2 hb.2⟩
    · exact ⟨zero_le_one, le_refl 1⟩

/-- S-norms are commutative, also outside their domain. -/
theorem real_comm (s : SNorm) (a b : ℝ) : s.real a b = s.real b a := by
  cases s with
  | hamacherSum => simp only [real, mul_comm b a, add_comm (b * (1 - a))]
  | _ => simp only [real, max_comm b a, min_comm b a, mul_comm b a, add_comm b a]

/-! ### Associativity -/

/-- The normalized sum is the bounded sum. -/
theorem real_normalizedSum (a b : ℝ) : normalizedSum.real a b = boundedSum.real a b := by
  simp only [real]
  rcases le_total 1 (a + b) with hle | hle
  · rw [max_eq_right hle, min_eq_left hle, div_self (zero_lt_one.trans_le hle).ne']
  · rw [max_eq_left hle, min_eq_right hle, div_one]

/-- Sums that are cut off after every summand are cut off once. -/
theorem real_assoc_boundedSum (ha : 0 ≤ a) (hc : 0 ≤ c) :
    boundedSum.real (boundedSum.real a b) c = boundedSum.real a (boundedSum.real b c) := by
  have hleft : min 1 (min 1 (a + b) + c) = min 1 (a + b + c) := by
    rcases le_total 1 (a + b) with hle | hle
    · rw [min_eq_left hle, min_eq_left (by linarith), min_eq_left (by linarith)]
    · rw [min_eq_right hle]
  have hright : min 1 (a + min 1 (b + c)) = min 1 (a + b + c) := by
    rcases le_total 1 (b + c) with hle | hle
    · rw [min_eq_left hle, min_eq_left (by linarith), min_eq_left (by linarith)]
    · rw [min_eq_right hle, add_assoc]
  exact hleft.trans hright.symm

/-- Joined by the drastic sum, numbers give their maximum when at most one of them is not negligible, and
one otherwise. -/
theorem real_assoc_drasticSum (a b c : ℝ) :
    drasticSum.real (drasticSum.real a b) c = drasticSum.real a (drasticSum.real b c) := by
  have hone : epsilon ≤ 1 := by linarith [epsilon_lt_half]
  -- eight cases, by which of the three numbers are negligible
  simp only [real, min_lt_iff]
  grind

/-- Joined by the nilpotent maximum, numbers give their maximum when no two of them have a sum near one,
and one otherwise. -/
theorem real_assoc_nilpotentMaximum (a b c : ℝ) :
    nilpotentMaximum.real (nilpotentMaximum.real a b) c =
      nilpotentMaximum.real a (nilpotentMaximum.real b c) := by
  have hpos := epsilon_pos
  -- the maximum of two numbers is near one with the third when one of them is
  simp only [real]
  grind

theorem real_assoc_einsteinSum (ha : 0 ≤ a) (hb : 0 ≤ b) (hc : 0 ≤ c) :
    einsteinSum.real (einsteinSum.real a b) c = einsteinSum.real a (einsteinSum.real b c) := by
  have hab : 1 + a * b ≠ 0 := by positivity
  have hbc : 1 + b * c ≠ 0 := by positivity
  have hleft : 1 + (a + b) / (1 + a * b) * c ≠ 0 := by positivity
  have hright : 1 + a * ((b + c) / (1 + b * c)) ≠ 0 := by positivity
  simp only [real]
  rw [div_eq_div_iff hleft hright]
  field_simp
  ring

/-- One absorbs everything that the Hamacher sum joins to it. -/
theorem real_hamacherSum_one (b : ℝ) : hamacherSum.real 1 b = 1 := by
  rw [real]
  split
  · rfl
  · next hne => rw [div_eq_one_iff_eq hne]; ring

/-- Below one, the Hamacher sum is a quotient without exceptions, and stays below one. -/
theorem real_hamacherSum_of_lt (ha : 0 ≤ a) (ha1 : a < 1) (hb : 0 ≤ b) (hb1 : b < 1) :
    0 < 1 - a * b ∧ hamacherSum.real a b = (a * (1 - b) + b * (1 - a)) / (1 - a * b) ∧
      0 ≤ hamacherSum.real a b ∧ hamacherSum.real a b < 1 := by
  have hpos : 0 < 1 - a * b := by nlinarith
  have hvalue : hamacherSum.real a b = (a * (1 - b) + b * (1 - a)) / (1 - a * b) := if_neg hpos.ne'
  refine ⟨hpos, hvalue, ?_, ?_⟩
  · rw [hvalue]
    exact div_nonneg (by nlinarith) hpos.le
  · rw [hvalue, div_lt_one hpos]
    nlinarith [mul_pos (sub_pos.2 ha1) (sub_pos.2 hb1)]

theorem real_assoc_hamacherSum (ha : a ∈ Set.Icc (0 : ℝ) 1) (hb : b ∈ Set.Icc (0 : ℝ) 1)
    (hc : c ∈ Set.Icc (0 : ℝ) 1) :
    hamacherSum.real (hamacherSum.real a b) c = hamacherSum.real a (hamacherSum.real b c) := by
  have hone : ∀ x, hamacherSum.real x 1 = 1 := fun x => by rw [real_comm, real_hamacherSum_one]
  -- where one of the three is one, both sides are
  rcases ha.2.eq_or_lt with rfl | ha1
  · rw [real_hamacherSum_one, real_hamacherSum_one, real_hamacherSum_one]
  rcases hb.2.eq_or_lt with rfl | hb1
  · rw [hone, real_hamacherSum_one, hone]
  rcases hc.2.eq_or_lt with rfl | hc1
  · rw [hone, hone, hone]
  -- below one no divisor is zero
  obtain ⟨hab, hvab, hab0, hab1⟩ := real_hamacherSum_of_lt ha.1 ha1 hb.1 hb1
  obtain ⟨hbc, hvbc, hbc0, hbc1⟩ := real_hamacherSum_of_lt hb.1 hb1 hc.1 hc1
  obtain ⟨hleft, hvleft, -⟩ := real_hamacherSum_of_lt hab0 hab1 hc.1 hc1
  obtain ⟨hright, hvright, -⟩ := real_hamacherSum_of_lt ha.1 ha1 hbc0 hbc1
  rw [hvleft, hvright, div_eq_div_iff hleft.ne' hright.ne', hvab, hvbc]
  field_simp
  ring

/-- S-norms are associative on their domain. -/
theorem real_assoc (ha : a ∈ s.domain) (hb : b ∈ s.domain) (hc : c ∈ s.domain) :
    s.real (s.real a b) c = s.real a (s.real b c) := by
  cases s with
  | maximum => exact max_assoc a b c
  | algebraicSum =>
    simp only [real]
    ring
  | boundedSum => exact real_assoc_boundedSum ha.1 hc.1
  | normalizedSum =>
    simp only [real_normalizedSum]
    exact real_assoc_boundedSum ha.1 hc.1
  | drasticSum => exact real_assoc_drasticSum a b c
  | einsteinSum => exact real_assoc_einsteinSum ha.1 hb.1 hc.1
  | hamacherSum => exact real_assoc_hamacherSum ha hb hc
  | nilpotentMaximum => exact real_assoc_nilpotentMaximum a b c
  | unboundedSum => exact add_assoc a b c

/-- The norm as an operation on its domain. -/
noncomputable def op (s : SNorm) (a b : s.domain) : s.domain := ⟨s.real a b, real_mem a.2 b.2⟩

instance (s : SNorm) : RightCommutative s.op where
  right_comm a b c := by
    refine Subtype.ext ?_
    calc s.real (s.real a b) c
      _ = s.real a (s.real b c) := real_assoc a.2 b.2 c.2
      _ = s.real a (s.real c b) := by rw [s.real_comm b c]
      _ = s.real (s.real a c) b := (real_assoc a.2 c.2 b.2).symm

end SNorm

end FuzzyInference
