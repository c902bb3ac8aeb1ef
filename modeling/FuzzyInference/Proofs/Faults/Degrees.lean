import FuzzyInference.Proofs.Decimal.Exactness
import FuzzyInference.Proofs.Faults.Inverses
import FuzzyInference.Proofs.Segments

/-!
# Faults of degrees

Which of the steps of a curve can fault on floating-point numbers. A quotient by a distance of two parameters is
guarded where the branch in which it is taken is empty for parameters of the same value; rounding does not spoil that,
since equal numbers pass the same tests and a difference is zero only if the numbers are equal. The guards do not cover
everything: the width of a cosine is not looked at, neither is the square of a distance that is too large, the middle of
an interval may be infinite, and a concave curve whose end is before its inflection, but not by the tolerance, may be
taken for a rising one.

The plan of this module:

* the steps that fault, shape by shape;
* distances and middles of an interval;
* curves of two parabolas;
* bell curves and the other shapes;
* the degree of a term.

## Main statements

* `Shape.parabolaFaults_iff`: s-curves fault on empty intervals whose middle is infinite, and only there
* `Shape.faults_iff_breaks`: where the degree of a shape faults
* `Term.membership_breaks`: where a term has a degree, for all finite parameters and every crisp value
-/

namespace FuzzyInference

open Scalar Checked

namespace Shape

/-! ## §1 Steps that fault -/

/-- What the bell curve around the mean is the exponential function of. -/
def gaussExponent (x mean deviation : Float) : Float := -((x - mean) * (x - mean)) / (2.0 * deviation * deviation)

/-- What a spike is the exponential function of. -/
def spikeExponent (x center width : Float) : Float := -Scalar.abs (10.0 / width * (x - center))

/-- The square of a distance may be too large. -/
def GaussBreaks (x mean deviation : Float) (f : Fault) : Prop :=
  if isInf ((x - mean) * (x - mean)) && isFinite (x - mean) then f = .overflow
  else ApplyFaults .exp (gaussExponent x mean deviation) f

/-- An empty interval so far out that its middle is infinite. -/
def IsSteep (x start stop : Float) : Prop :=
  (start == stop) = true ∧ (start + stop == inf) = true ∧ atMost x start = false

/-- The steps at which the degree of a shape faults on floating-point numbers. -/
def Breaks (s : Shape Float) (x : Float) (f : Fault) : Prop :=
  match s with
  | bell center width slope =>
    near width 0.0 = false ∧
      (PowerFaults (Scalar.abs ((x - center) / width)) (2.0 * slope) f ∨
        ∃ y, power (Scalar.abs ((x - center) / width)) (2.0 * slope) = .ok y ∧ DivideFaults (1.0 + y) f)
  | binary .. | discrete .. | ramp .. | rectangle .. | trapezoid .. | triangle .. => False
  | concave i e =>
    f = .zeroDivision ∧ atMost i e = true ∧ e < i ∧ below x e = true ∧ (2.0 * e - i - x == 0.0) = true
  | cosine center width =>
    (below x (center - 0.5 * width) || above x (center + 0.5 * width)) = false ∧
      if width == 0.0 then f = .zeroDivision else ApplyFaults .cos (2.0 / width * pi * (x - center)) f
  | gaussian mean deviation => near deviation 0.0 = false ∧ GaussBreaks x mean deviation f
  | gaussianProduct meanA deviationA meanB deviationB =>
    (below x meanA && near deviationA 0.0) = false ∧
      ((below x meanA = true ∧ GaussBreaks x meanA deviationA f) ∨
        (below x meanA = true → ∀ g, ¬GaussBreaks x meanA deviationA g) ∧
          above x meanB = true ∧ near deviationB 0.0 = false ∧ GaussBreaks x meanB deviationB f)
  | piShape bottomLeft topLeft topRight bottomRight =>
    f = .zeroDivision ∧ (IsSteep x bottomLeft topLeft ∨ IsSteep x topRight bottomRight)
  | sShape start stop | zShape start stop => f = .zeroDivision ∧ IsSteep x start stop
  | sigmoid inflection slope => LogisticFaults x inflection slope f
  | sigmoidDifference left rising falling right | sigmoidProduct left rising falling right =>
    LogisticFaults x left rising f ∨ (∃ y, logistic x left rising = .ok y) ∧ LogisticFaults x right falling f
  | spike center width => near width 0.0 = false ∧ ApplyFaults .exp (spikeExponent x center width) f

/-- The shape takes the exponential function. -/
def Raises : Shape Float → Prop
  | gaussian .. | gaussianProduct .. | sigmoid .. | sigmoidDifference .. | sigmoidProduct .. | spike .. => True
  | _ => False

/-- The exponential function faults, or one more than its value is zero. -/
def RaiseFaults (y : Float) (f : Fault) : Prop :=
  ApplyFaults .exp y f ∨ ∃ z, apply .exp y = .ok z ∧ DivideFaults (1.0 + z) f

end Shape

namespace Float

open Decimal

variable {x a b s e n d : Float}

/-! ## §2 Distances and middles -/

theorem atMost_of_below (h : below x a = true) : atMost x a = true := by
  rw [below, belowWithin, Bool.and_eq_true] at h
  rw [atMost, atMostWithin, h.2, Bool.or_true]

/-- A square of a quotient is not too large where the divisor is not too small. -/
theorem not_squareFaults_div {f : Fault}
    (h : Scalar.isFinite n = true → Scalar.isFinite d = true → value n ≠ 0 ∧ |value n| ≤ 2 ^ 150 * |value d|) :
    ¬SquareFaults (n / d) f := by
  rintro ⟨hsquare, -⟩
  obtain ⟨hinf, hquotient⟩ := Bool.and_eq_true_iff.1 hsquare
  obtain ⟨hn, hnonzero, hcases⟩ := isFinite_of_div hquotient
  have hlarge : (2 : ℚ) ^ 152 * 2 ^ 152 < sizeBound := by
    rw [sizeBound, ← pow_add, ← zpow_natCast]
    exact zpow_lt_zpow_right₀ one_lt_two (by norm_num)
  have hbound : |value (n / d)| ≤ 2 ^ 152 := by
    rcases hcases with hzero | hd
    · rw [beq_iff_value_eq hquotient (by decide), value_zero] at hzero
      rw [hzero, abs_zero]
      positivity
    · obtain ⟨hn₀, hle⟩ := h hn hd
      have hd₀ : value d ≠ 0 := by
        intro hzero
        have hbeq := (beq_iff_value_eq hd (by decide)).2 (hzero.trans value_zero.symm)
        rw [hbeq] at hnonzero
        cases hnonzero
      have hratio : |value n / value d| ≤ 2 ^ 150 := by
        rw [abs_div]
        exact div_le_of_le_mul₀ (abs_nonneg _) (by positivity) hle
      obtain ⟨-, herror⟩ := div_spec hn hd hn₀ hd₀ (hratio.trans_lt (lt_trans (by norm_num) hlarge))
      have htriangle := abs_sub_abs_le_abs_sub (value (n / d)) (value n / value d)
      have hleast := leastUnit_le_one
      linarith
  have hproduct : |value (n / d) * value (n / d)| < sizeBound := by
    rw [abs_mul]
    calc |value (n / d)| * |value (n / d)| ≤ 2 ^ 152 * 2 ^ 152 :=
          mul_le_mul hbound hbound (abs_nonneg _) (by positivity)
      _ < sizeBound := hlarge
  have hfinite := (mul_spec hquotient hquotient hproduct).1
  rw [isInf_ne_isFinite hinf] at hfinite
  cases hfinite

theorem value_two : value 2.0 = 2 := by
  rw [value_of_parts (m := 4503599627370496) (e := -51) (by decide)]
  norm_num

/-- Twice a number is exact. -/
theorem value_two_mul (h : Scalar.isFinite (2.0 * x) = true) : value (2.0 * x) = 2 * value x := by
  obtain ⟨htwo, hx⟩ := isFinite_of_mul h
  have hrepresentable : IsRepresentable (value 2.0 * value x) := by
    rw [value_two]
    exact (isRepresentable_value hx).two_mul
  rw [(isResult_mul htwo hx hrepresentable).value_eq h, value_two]

/-- The middle of two numbers whose sum is finite is not larger than both of them. -/
theorem middle_bounds (he : Scalar.isFinite e = true) (hsum : Scalar.isFinite (s + e) = true) :
    Scalar.isFinite (0.5 * (s + e)) = true ∧
      |value (0.5 * (s + e))| ≤ 2 * (|value s| + |value e|) + leastUnit := by
  obtain ⟨-, hhalf, -⟩ := isFinite_literals
  obtain ⟨hneg, hvalue⟩ := neg_spec he
  have hlarge := abs_value_lt hsum
  have hbound : |value (s + e)| ≤ 2 * (|value s| + |value e|) := by
    rw [add_eq_sub_neg] at hsum ⊢
    have hexact := (abs_value_sub_bounds hsum).2
    have htriangle := abs_sub (value s) (value (-e))
    rw [hvalue, abs_neg] at htriangle
    rw [hvalue] at hexact
    linarith
  have hproduct : |value 0.5 * value (s + e)| = |value (s + e)| / 2 := by
    rw [value_half, abs_mul, abs_of_pos one_half_pos]
    ring
  obtain ⟨hfinite, herror, -⟩ := mul_spec hhalf hsum (by rw [hproduct]; linarith)
  have htriangle := abs_sub_abs_le_abs_sub (value (0.5 * (s + e))) (value 0.5 * value (s + e))
  rw [hproduct] at herror htriangle
  have hnonneg := abs_nonneg (value (s + e))
  exact ⟨hfinite, by linarith⟩

/-- The middle of a number and itself is the number. -/
theorem value_middle_self (hs : Scalar.isFinite s = true) (he : Scalar.isFinite e = true) (h : value s = value e)
    (hsum : Scalar.isFinite (s + e) = true) :
    Scalar.isFinite (0.5 * (s + e)) = true ∧ value (0.5 * (s + e)) = value s := by
  obtain ⟨-, hhalf, -⟩ := isFinite_literals
  obtain ⟨hneg, hvalue⟩ := neg_spec he
  have hfinite := (middle_bounds he hsum).1
  have hdouble : value (s + e) = 2 * value s := by
    have hrepresentable : IsRepresentable (value s - value (-e)) := by
      rw [hvalue, ← h, sub_neg_eq_add, ← two_mul]
      exact (isRepresentable_value hs).two_mul
    rw [add_eq_sub_neg] at hsum ⊢
    rw [(isResult_sub hs hneg hrepresentable).value_eq hsum, hvalue, ← h]
    ring
  have hexact : value 0.5 * value (s + e) = value s := by
    rw [value_half, hdouble]
    ring
  have hrepresentable : IsRepresentable (value 0.5 * value (s + e)) := hexact ▸ isRepresentable_value hs
  refine ⟨hfinite, ?_⟩
  rw [(isResult_mul hhalf hsum hrepresentable).value_eq hfinite, hexact]

/-- Tests with the tolerance do not tell tiny numbers apart. -/
theorem atMost_eq_false_of_tiny (hx : Scalar.isFinite x = true) (ha : Scalar.isFinite a = true)
    (hb : Scalar.isFinite b = true) (hatiny : |value a| < 1 / 2 ^ 88) (hbtiny : |value b| < 1 / 2 ^ 88)
    (h : atMost x a = false) : atMost x b = false := by
  obtain ⟨hnear, hlt⟩ := Bool.or_eq_false_iff.1 h
  have hleast := le_abs_sub_of_near hx ha hnear
  have hle := value_le_of_not_atMost hx ha h
  obtain ⟨halow, hahigh⟩ := abs_lt.1 hatiny
  obtain ⟨hblow, hbhigh⟩ := abs_lt.1 hbtiny
  rw [abs_of_nonneg (sub_nonneg.2 hle)] at hleast
  norm_num at hleast halow hahigh hblow hbhigh
  have hpos : 8 / 10 ^ 10 < value x := by
    norm_num
    linarith
  refine Bool.or_eq_false_iff.2 ⟨?_, decide_eq_false ?_⟩
  · -- both are lost in the number, and the rounded distances are the number itself
    rw [← Bool.not_eq_true]
    intro hnear'
    have hclose := abs_lt.1 (abs_sub_lt_of_near hx hb hnear')
    have hfour := four_le_sizeBound
    have hlost : ∀ c : Float, Scalar.isFinite c = true → |value c| < 1 / 2 ^ 88 →
        Scalar.isFinite (x - c) = true ∧ value (x - c) = value x := by
      intro c hc htiny
      obtain ⟨hlow, hhigh⟩ := abs_lt.1 htiny
      norm_num at hlow hhigh hclose
      refine value_sub_of_small hx hc ?_ ?_
      · exact (abs_lt.2 ⟨by linarith, by linarith⟩ : |value x - value c| < 1).trans (by linarith)
      · rw [abs_of_pos (lt_trans (by norm_num) hpos)]
        norm_num at htiny hpos ⊢
        linarith
    obtain ⟨hfinite, hvalue⟩ := hlost a ha hatiny
    obtain ⟨-, hvalue'⟩ := hlost b hb hbtiny
    have hnot := Bool.eq_false_iff.1 hnear
    rw [nearWithin_iff isFinite_tolerance hx hb, hvalue'] at hnear'
    rw [ne_eq, nearWithin_iff isFinite_tolerance hx ha, hvalue] at hnot
    rcases hnear' with hsame | ⟨-, hbelow⟩
    · norm_num at hpos
      linarith
    · exact hnot (.inr ⟨hfinite, hbelow⟩)
  · rw [lt_iff_value_lt hx hb]
    norm_num at hpos
    linarith

/-- In the first half of an interval that is not empty, the distance to the start is not much larger than the
interval. -/
theorem abs_sub_le_of_first_half (hx : Scalar.isFinite x = true) (hs : Scalar.isFinite s = true)
    (he : Scalar.isFinite e = true) (hne : value s ≠ value e) (hlow : atMost x s = false)
    (hmiddle : atMost x (0.5 * (s + e)) = true) : |value x - value s| ≤ 2 ^ 147 * |value e - value s| := by
  have hle := value_le_of_not_atMost hx hs hlow
  rw [abs_of_nonneg (sub_nonneg.2 hle)]
  have hseparate := (isRepresentable_value hs).abs_le_of_ne (isRepresentable_value he) hne
  have hseparate' := (isRepresentable_value he).abs_le_of_ne (isRepresentable_value hs) hne.symm
  rw [abs_sub_comm] at hseparate
  have hsize : |value s| + |value e| ≤ 2 ^ 55 * |value e - value s| := by linarith
  have hstart := neg_abs_le (value s)
  have hnonneg := abs_nonneg (value s)
  have hnonneg' := abs_nonneg (value e)
  obtain ⟨size, hsize_eq⟩ : ∃ size, size = |value s| + |value e| := ⟨_, rfl⟩
  -- the distance to the start, in terms of the size of the parameters
  suffices hscaled : value x - value s ≤ 2 ^ 92 * size by
    rw [hsize_eq] at hscaled
    linarith
  by_cases hsum : Scalar.isFinite (s + e) = true
  · obtain ⟨hfinite, hbound⟩ := middle_bounds he hsum
    have hleast := leastUnit_lt
    by_cases htiny : size < 1 / 2 ^ 90
    · have hapart := atMost_eq_false_of_tiny hx hs hfinite
        (by norm_num at htiny ⊢; linarith)
        (by
          have hunit : leastUnit < 1 / 2 ^ 90 := by
            have hpow : (2 : ℚ) ^ (-1074 : ℤ) < 2 ^ (-90 : ℤ) := zpow_lt_zpow_right₀ one_lt_two (by norm_num)
            calc leastUnit < 2 ^ (-90 : ℤ) := hpow
              _ = 1 / 2 ^ 90 := by norm_num
          norm_num at htiny hunit ⊢
          linarith) hlow
      rw [hapart] at hmiddle
      cases hmiddle
    · have hbelow := value_lt_of_atMost hx hfinite hmiddle
      have hmost := le_abs_self (value (0.5 * (s + e)))
      norm_num at htiny hleast hbelow ⊢
      linarith
  · have hlarge := abs_value_lt hx
    have hmost := le_abs_self (value x)
    rw [add_eq_sub_neg] at hsum
    obtain ⟨hneg, hvalue⟩ := neg_spec he
    obtain ⟨-, hhuge⟩ := (sub_cases hs hneg).resolve_left fun h => hsum h.1
    have htriangle := abs_sub (value s) (value (-e))
    rw [hvalue, abs_neg] at htriangle
    rw [hvalue] at hhuge
    have hfour := four_le_sizeBound
    norm_num
    linarith

/-- Everything but `nan` is at most infinity. -/
theorem atMost_inf (hx : isNaN x = false) : atMost x inf = true := by
  by_cases hfinite : Scalar.isFinite x = true
  · exact Bool.or_eq_true_iff.2 (.inr (decide_eq_true (lt_inf hfinite)))
  · rcases cases_of_not_isFinite (Bool.eq_false_iff.2 hfinite) with rfl | rfl | rfl
    · cases hx
    · decide
    · decide

/-- What is at most the negative infinity is at most every finite number. -/
theorem atMost_of_atMost_neg_inf (hx : isNaN x = false) (ha : Scalar.isFinite a = true)
    (h : atMost x (-inf) = true) : atMost x a = true := by
  by_cases hfinite : Scalar.isFinite x = true
  · rcases Bool.or_eq_true_iff.1 h with hnear | hlt
    · rw [isFinite_of_near hnear] at hfinite
      cases hfinite
    · exact absurd (of_decide_eq_true hlt) (not_lt_neg_inf x)
  · rcases cases_of_not_isFinite (Bool.eq_false_iff.2 hfinite) with rfl | rfl | rfl
    · cases hx
    · cases h
    · exact Bool.or_eq_true_iff.2 (.inr (decide_eq_true (neg_inf_lt ha)))

/-- Twice the square of a number that is not near zero is not zero. -/
theorem beq_zero_of_not_near (hd : Scalar.isFinite d = true) (h : near d 0.0 = false) :
    (2.0 * d * d == 0.0) = false := by
  obtain ⟨hzero, -, -⟩ := isFinite_literals
  rw [← Bool.not_eq_true]
  intro hbeq
  have hfinite := isFinite_of_beq_zero hbeq
  obtain ⟨hdouble, -⟩ := isFinite_of_mul hfinite
  have hapart := le_abs_sub_of_near hd hzero h
  rw [value_zero, sub_zero] at hapart
  obtain ⟨r, hr, herror, -⟩ := exists_mul hdouble hd
  rw [← hr.value_eq hfinite, (beq_iff_value_eq hfinite hzero).1 hbeq, value_zero, zero_sub, abs_neg,
    value_two_mul hdouble, mul_assoc, abs_mul, abs_mul, abs_two] at herror
  have hsquare : (9 / 10 ^ 10) * (9 / 10 ^ 10) ≤ |value d| * |value d| :=
    mul_le_mul hapart hapart (by norm_num) (abs_nonneg _)
  have hleast := leastUnit_lt
  norm_num at hsquare herror hleast
  linarith

end Float

namespace Shape

variable {x : Float} {f : Fault}

/-! ## §3 Parabolas -/

/-- A sum of equal numbers is infinite, or their middle is the number. -/
theorem atMost_middle_of_eq {start stop : Float} (hstart : isFinite start = true) (hstop : isFinite stop = true)
    (hx : isNaN x = false) (heq : Float.value start = Float.value stop) (hlow : atMost x start = false)
    (hmiddle : atMost x (0.5 * (start + stop)) = true) : (start + stop == inf) = true := by
  by_cases hsum : isFinite (start + stop) = true
  · obtain ⟨hfinite, hvalue⟩ := Float.value_middle_self hstart hstop heq hsum
    rw [Float.atMost_congr hfinite hstart hvalue, hlow] at hmiddle
    cases hmiddle
  · obtain ⟨hneg, -⟩ := Float.neg_spec hstop
    have hcases := Float.sub_cases hstart hneg
    rw [← Float.add_eq_sub_neg] at hcases
    obtain ⟨hinf, -⟩ := hcases.resolve_left fun h => hsum h.1
    rcases Float.eq_of_isInf hinf with hsum | hsum
    · rw [hsum]
      decide
    · -- the middle is infinite too, and everything that is at most it is at most the start
      have hhalf : (0.5 * -inf : Float) = -inf := Float.eq_of_unpack rfl
      rw [hsum, hhalf] at hmiddle
      rw [Float.atMost_of_atMost_neg_inf hx hstart hmiddle] at hlow
      cases hlow

/-- The middle of a steep interval is infinite. -/
theorem IsSteep.atMost_middle {start stop : Float} (h : IsSteep x start stop) (hx : isNaN x = false) :
    atMost x (0.5 * (start + stop)) = true := by
  obtain ⟨-, hsum, -⟩ := h
  have hinf : start + stop = inf := by
    refine (Float.eq_of_isInf (Bool.or_eq_true_iff.2 (.inl hsum))).resolve_right fun hnegative => ?_
    rw [hnegative] at hsum
    cases hsum
  have hhalf : (0.5 * inf : Float) = inf := Float.eq_of_unpack rfl
  rw [hinf, hhalf]
  exact Float.atMost_inf hx

/-- A parabola does not square a quotient that is too large. -/
theorem not_squaredFaults {start stop p : Float} (hne : Float.value stop ≠ Float.value start)
    (hbound : isFinite x = true → isFinite p = true → Float.value x ≠ Float.value p ∧
      |Float.value x - Float.value p| ≤ 2 ^ 147 * |Float.value stop - Float.value start|) :
    ¬SquaredFaults (x - p) (stop - start) f := by
  rintro (⟨hzero, -⟩ | ⟨q, hq, hsquare⟩)
  · exact hne (Float.sub_beq_zero_iff.1 hzero).2.2
  · obtain rfl : (x - p) / (stop - start) = q := by
      unfold divide at hq
      split at hq
      · cases hq
      · exact Except.ok.inj hq
    refine Float.not_squareFaults_div (fun hdistance hwidth => ?_) hsquare
    obtain ⟨hx, hp⟩ := Float.isFinite_of_sub hdistance
    obtain ⟨hapart, hle⟩ := hbound hx hp
    obtain ⟨hleast, hmost⟩ := Float.abs_value_sub_bounds hdistance
    obtain ⟨hleast', -⟩ := Float.abs_value_sub_bounds hwidth
    constructor
    · intro hvalue
      rw [hvalue, abs_zero, mul_zero] at hleast
      exact hapart (sub_eq_zero.1 (abs_nonpos_iff.1 hleast))
    · norm_num at hle ⊢
      linarith

/-- In the first half of an interval the quotient is by zero where the interval is steep; it is never too large. -/
theorem squaredFaults_first_half {start stop : Float} (hstart : isFinite start = true) (hstop : isFinite stop = true)
    (hx : isNaN x = false) (hlow : atMost x start = false) (hmiddle : atMost x (0.5 * (start + stop)) = true) :
    SquaredFaults (x - start) (stop - start) f ↔ f = .zeroDivision ∧ IsSteep x start stop := by
  have hsame : (stop - start == 0.0) = true ↔ (start == stop) = true := by
    rw [Float.sub_beq_zero_iff, Float.beq_iff_value_eq hstart hstop]
    exact ⟨fun h => h.2.2.symm, fun h => ⟨hstop, hstart, h.symm⟩⟩
  constructor
  · intro hfaults
    by_cases heq : Float.value stop = Float.value start
    · have hsteep : IsSteep x start stop :=
        ⟨(Float.beq_iff_value_eq hstart hstop).2 heq.symm,
          atMost_middle_of_eq hstart hstop hx heq.symm hlow hmiddle, hlow⟩
      rcases hfaults with ⟨-, hf⟩ | ⟨q, hq, -⟩
      · exact ⟨hf, hsteep⟩
      · rw [divide, hsame.2 hsteep.1, if_pos rfl] at hq
        cases hq
    · refine absurd hfaults (not_squaredFaults heq fun hfinite _ => ⟨?_, ?_⟩)
      · intro hvalue
        rw [atMost, atMostWithin, ← near, Float.near_of_value_eq hfinite hstart hvalue] at hlow
        cases hlow
      · exact Float.abs_sub_le_of_first_half hfinite hstart hstop (Ne.symm heq) hlow hmiddle
  · rintro ⟨hf, hsteep⟩
    exact .inl ⟨hsame.2 hsteep.1, hf⟩

/-- In the second half the distance to the stop is not larger than the interval. -/
theorem not_squaredFaults_second_half {start stop : Float} (hstart : isFinite start = true)
    (hstop : isFinite stop = true) (hlow : atMost x start = false) (hbelow : below x stop = true) :
    ¬SquaredFaults (x - stop) (stop - start) f := by
  refine not_squaredFaults ?_ fun hfinite _ => ?_
  · intro heq
    have hmost := Float.atMost_of_below hbelow
    rw [Float.atMost_congr hstop hstart heq, hlow] at hmost
    cases hmost
  · have hle := Float.value_le_of_not_atMost hfinite hstart hlow
    have hlt : Float.value x < Float.value stop :=
      (Float.lt_iff_value_lt hfinite hstop).1 (of_decide_eq_true (Bool.and_eq_true_iff.1 hbelow).2)
    refine ⟨hlt.ne, ?_⟩
    rw [abs_of_neg (sub_neg.2 hlt), abs_of_pos (sub_pos.2 (hle.trans_lt hlt))]
    norm_num
    linarith

/-- The curves of two parabolas fault on empty intervals whose middle is infinite, and only there. -/
theorem parabolaFaults_iff {start stop : Float} (hstart : isFinite start = true) (hstop : isFinite stop = true)
    (hx : isNaN x = false) : ParabolaFaults x start stop f ↔ f = .zeroDivision ∧ IsSteep x start stop := by
  unfold ParabolaFaults
  cases hlow : atMost x start with
  | true => exact iff_of_false id fun h => Bool.false_ne_true (h.2.2.2.symm.trans hlow)
  | false =>
    cases hmiddle : atMost x (0.5 * (start + stop)) with
    | true => exact squaredFaults_first_half hstart hstop hx hlow hmiddle
    | false =>
      have hflat : ¬(f = .zeroDivision ∧ IsSteep x start stop) := by
        rintro ⟨-, hsteep⟩
        rw [hsteep.atMost_middle hx] at hmiddle
        cases hmiddle
      cases hbelow : below x stop with
      | true => exact iff_of_false (not_squaredFaults_second_half hstart hstop hlow hbelow) hflat
      | false => exact iff_of_false id hflat

/-! ## §4 Other shapes -/

/-- A computation has a value unless it is refused. -/
theorem exists_ok_iff {ε β : Type} {y : Except ε β} : (∃ b, y = .ok b) ↔ ∀ e, y ≠ .error e := by
  cases y with
  | ok b => exact iff_of_true ⟨b, rfl⟩ fun e h => by cases h
  | error f =>
    refine iff_of_false ?_ fun h => h f rfl
    rintro ⟨b, h⟩
    cases h

theorem divide_of_not_near {a width : Float} (h : near width 0.0 = false) : divide a width = .ok (a / width) := by
  have hzero : (width == 0.0) = false := by
    rw [near, nearWithin, Bool.or_eq_false_iff, Bool.or_eq_false_iff] at h
    exact h.1.1
  rw [divide, hzero, if_neg Bool.false_ne_true]

theorem gaussFaults_iff {mean deviation : Float} (hdeviation : isFinite deviation = true)
    (h : near deviation 0.0 = false) : GaussFaults x mean deviation f ↔ GaussBreaks x mean deviation f := by
  have hdivisor := Float.beq_zero_of_not_near hdeviation h
  unfold GaussFaults GaussBreaks SquareFaults DivideFaults square gaussExponent
  simp only [divide, hdivisor, Bool.false_eq_true, if_false, false_and, false_or]
  cases isInf ((x - mean) * (x - mean)) && isFinite (x - mean) with
  | true => simp
  | false => simp

/-- The bell curve takes the exponential function of no positive number. -/
theorem not_exponentLimit_lt_gaussExponent (x mean deviation : Float) :
    ¬exponentLimit < gaussExponent x mean deviation := by
  obtain ⟨s, hs⟩ := Float.HasSign.exists_sign deviation.toModel.unpack
  have htwo : Float.HasSign .positive (2.0 : Float).toModel.unpack := rfl
  have hsquare := (Float.HasSign.mul_self (x - mean)).neg
  refine Float.HasSign.not_lt (x := gaussExponent x mean deviation) ?_ (by decide)
  have hquotient := hsquare.div ((htwo.mul hs).mul hs)
  cases s <;> exact hquotient

theorem not_exponentLimit_lt_spikeExponent (x center width : Float) :
    ¬exponentLimit < spikeExponent x center width :=
  (Float.HasSign.abs _).neg.not_lt (by decide)

/-- A rising concave curve has a pole before its end only where the end is before the inflection. -/
theorem concave_rising {i e : Float} (hi : isFinite i = true) (he : isFinite e = true) (hbelow : below x e = true)
    (hzero : (2.0 * e - i - x == 0.0) = true) : e < i := by
  obtain ⟨hdifference, hx, hvalue⟩ := Float.sub_beq_zero_iff.1 hzero
  have hdouble := Float.value_two_mul (Float.isFinite_of_sub hdifference).1
  have hlt := (Float.lt_iff_value_lt hx he).1 (of_decide_eq_true (Bool.and_eq_true_iff.1 hbelow).2)
  rw [Float.lt_iff_value_lt he hi]
  by_contra hle
  have hpole : Float.value e ≤ Float.value (2.0 * e - i) := Float.le_value_sub he (by linarith) hdifference
  linarith

/-- A falling concave curve has no pole behind its end. -/
theorem concave_falling {i e : Float} (hi : isFinite i = true) (he : isFinite e = true) (hfalls : atMost i e = false)
    (habove : above x e = true) : (i - 2.0 * e + x == 0.0) = false := by
  rw [← Bool.not_eq_true, Float.add_eq_sub_neg, Float.sub_beq_zero_iff, Float.isFinite_neg]
  rintro ⟨hdifference, hx, hvalue⟩
  have hdouble := Float.value_two_mul (Float.isFinite_of_sub hdifference).2
  have hlt := (Float.lt_iff_value_lt he hx).1 (of_decide_eq_true (Bool.and_eq_true_iff.1 habove).2)
  have hle := Float.value_le_of_not_atMost hi he hfalls
  obtain ⟨hneg, hopposite⟩ := Float.neg_spec he
  rw [(Float.neg_spec hx).2] at hvalue
  have hpole : Float.value (-e) ≤ Float.value (i - 2.0 * e) := Float.le_value_sub hneg (by linarith) hdifference
  linarith

/-- Interpolation does not divide by zero, since a value lies between the ends of the segment. -/
theorem not_interpolateFaults {points : List (Float × Float)} {first last : Float × Float}
    (hpoints : ∀ p ∈ points, isFinite p.1 = true) (hfirst : points.head? = some first)
    (hlast : points.getLast? = some last) (hx : isNaN x = false) (hlow : atMost x first.1 = false)
    (hhigh : atLeast x last.1 = false) : ¬InterpolateFaults points x f := by
  obtain ⟨-, hstart⟩ := Bool.or_eq_false_iff.1 hlow
  obtain ⟨hnear, hstop⟩ := Bool.or_eq_false_iff.1 hhigh
  have hlt : x < last.1 :=
    (Float.lt_or_lt_of_not_near hx (hpoints _ (List.mem_of_getLast? hlast)) hnear).resolve_right
      (of_decide_eq_false hstop)
  obtain ⟨p, q, hsegment⟩ := exists_isSegment hfirst hlast (of_decide_eq_false hstart) hlt
  have hp := hsegment.start
  have hq := hsegment.stop
  unfold upper at hp hq
  simp only [InterpolateFaults, hp, hq]
  rintro ⟨hzero, -⟩
  obtain ⟨hq', hp', hvalue⟩ := Float.sub_beq_zero_iff.1 hzero
  exact hsegment.start_le ((Float.lt_congr_right hq' hp' hvalue).1 hsegment.lt_stop)

/-- The left side of a triangle or a trapezoid is not empty where a value lies on it. -/
theorem not_divideFaults_of_below {a b : Float} (ha : below x a = false) (hb : below x b = true) :
    ¬DivideFaults (b - a) f := by
  rintro ⟨hzero, -⟩
  obtain ⟨hb', ha', hvalue⟩ := Float.sub_beq_zero_iff.1 hzero
  rw [Float.below_congr hb' ha' hvalue, ha] at hb
  cases hb

theorem isFinite_pair {a b : Float} (h : ∀ v ∈ [a, b], isFinite v = true) :
    isFinite a = true ∧ isFinite b = true := by
  obtain ⟨ha, hrest⟩ := List.forall_mem_cons.1 h
  exact ⟨ha, (List.forall_mem_cons.1 hrest).1⟩

/-- The degree of a shape with finite parameters faults at the steps that are not guarded. -/
theorem faults_iff_breaks {s : Shape Float} (hvalues : ∀ v ∈ s.values, isFinite v = true) (hx : isNaN x = false)
    (hblank : s.isBlank = false) : s.Faults x f ↔ s.Breaks x f := by
  cases s with
  | bell center width slope =>
    refine and_congr_right fun hwidth => ?_
    simp only [divide_of_not_near hwidth, Except.ok.injEq, exists_eq_left']
  | binary start direction => exact Iff.rfl
  | concave i e =>
    obtain ⟨hi, he⟩ := isFinite_pair hvalues
    simp only [Faults, Breaks, DivideFaults]
    cases hrises : atMost i e with
    | true =>
      constructor
      · rintro ⟨hbelow, hzero, hf⟩
        exact ⟨hf, rfl, concave_rising hi he hbelow hzero, hbelow, hzero⟩
      · rintro ⟨hf, -, -, hbelow, hzero⟩
        exact ⟨hbelow, hzero, hf⟩
    | false =>
      refine iff_of_false ?_ fun h => Bool.false_ne_true h.2.1
      rintro ⟨habove, hzero, -⟩
      rw [concave_falling hi he hrises habove] at hzero
      cases hzero
  | cosine center width =>
    refine and_congr_right fun _ => ?_
    cases hzero : width == 0.0 with
    | true => simp [DivideFaults, divide, hzero]
    | false => simp [DivideFaults, divide, hzero]
  | discrete points =>
    refine iff_of_false ?_ id
    have hpoints : ∀ p ∈ points, isFinite p.1 = true := fun p hp =>
      hvalues p.1 (List.mem_flatMap.2 ⟨p, hp, List.mem_cons_self⟩)
    have hne : points ≠ [] := by
      rintro rfl
      cases hblank
    have hfirst := List.head?_eq_some_head hne
    have hlast := List.getLast?_eq_some_getLast hne
    simp only [Faults, hfirst, hlast]
    rintro ⟨hlow, hhigh, hfaults⟩
    exact not_interpolateFaults hpoints hfirst hlast hx hlow hhigh hfaults
  | gaussian mean deviation =>
    obtain ⟨-, hdeviation⟩ := isFinite_pair hvalues
    exact and_congr_right fun h => gaussFaults_iff hdeviation h
  | gaussianProduct meanA deviationA meanB deviationB =>
    have hdeviationA := hvalues deviationA (by simp [values])
    have hdeviationB := hvalues deviationB (by simp [values])
    refine and_congr_right fun hguard => ?_
    have hleft : below x meanA = true → ∀ g, GaussFaults x meanA deviationA g ↔ GaussBreaks x meanA deviationA g := by
      intro hbelow g
      rw [hbelow, Bool.true_and] at hguard
      exact gaussFaults_iff hdeviationA hguard
    refine or_congr (and_congr_right fun hbelow => hleft hbelow f) (and_congr ?_ ?_)
    · refine imp_congr_right fun hbelow => exists_ok_iff.trans (forall_congr' fun g => ?_)
      exact not_congr (gaussCurve_eq_error_iff.trans (hleft hbelow g))
    · exact and_congr_right fun _ => and_congr_right fun h => gaussFaults_iff hdeviationB h
  | piShape bottomLeft topLeft topRight bottomRight =>
    have hrising : ∀ g, ParabolaFaults x bottomLeft topLeft g ↔ g = .zeroDivision ∧ IsSteep x bottomLeft topLeft :=
      fun g => parabolaFaults_iff (hvalues _ (by simp [values])) (hvalues _ (by simp [values])) hx
    have hfalling : ParabolaFaults x topRight bottomRight f ↔ f = .zeroDivision ∧ IsSteep x topRight bottomRight :=
      parabolaFaults_iff (hvalues _ (by simp [values])) (hvalues _ (by simp [values])) hx
    simp only [Faults, Breaks, hrising, hfalling]
    constructor
    · rintro (⟨hf, hsteep⟩ | ⟨-, -, hf, hsteep⟩)
      · exact ⟨hf, .inl hsteep⟩
      · exact ⟨hf, .inr hsteep⟩
    · rintro ⟨hf, hsteep⟩
      by_cases hleft : IsSteep x bottomLeft topLeft
      · exact .inl ⟨hf, hleft⟩
      · obtain ⟨y, hy⟩ := exists_ok_iff.2 fun g hg => hleft ((hrising g).1 (sCurve_eq_error_iff.1 hg)).2
        exact .inr ⟨y, hy, hf, hsteep.resolve_left hleft⟩
  | ramp start stop =>
    refine iff_of_false ?_ id
    obtain ⟨hstart, hstop⟩ := isFinite_pair hvalues
    rintro ⟨hapart, hfaults⟩
    have hne : Float.value start ≠ Float.value stop := by
      intro hvalue
      rw [Float.near_of_value_eq hstart hstop hvalue] at hapart
      cases hapart
    split at hfaults
    next =>
      obtain ⟨-, -, hzero, -⟩ := hfaults
      exact hne (Float.sub_beq_zero_iff.1 hzero).2.2.symm
    next =>
      obtain ⟨-, -, hzero, -⟩ := hfaults
      exact hne (Float.sub_beq_zero_iff.1 hzero).2.2
  | rectangle start stop => exact Iff.rfl
  | sShape start stop =>
    obtain ⟨hstart, hstop⟩ := isFinite_pair hvalues
    exact parabolaFaults_iff hstart hstop hx
  | sigmoid inflection slope => exact Iff.rfl
  | sigmoidDifference left rising falling right => exact or_congr_right exists_and_right
  | sigmoidProduct left rising falling right => exact or_congr_right exists_and_right
  | spike center width =>
    refine and_congr_right fun hwidth => ?_
    simp only [divide_of_not_near hwidth, Except.ok.injEq, exists_eq_left', spikeExponent]
  | trapezoid a b c d =>
    refine iff_of_false ?_ id
    rintro ⟨houter, hfaults⟩
    obtain ⟨hleft, -⟩ := Bool.or_eq_false_iff.1 houter
    split at hfaults
    next hbelow => exact not_divideFaults_of_below hleft hbelow hfaults.2
    next =>
      obtain ⟨hplateau, hbelow, -, hzero, -⟩ := hfaults
      obtain ⟨hd, hc, hvalue⟩ := Float.sub_beq_zero_iff.1 hzero
      rw [← Float.atMost_congr hd hc hvalue, Float.atMost_of_below hbelow] at hplateau
      cases hplateau
  | triangle a b c =>
    refine iff_of_false ?_ id
    rintro ⟨houter, hnear, hfaults⟩
    obtain ⟨hleft, hright⟩ := Bool.or_eq_false_iff.1 houter
    split at hfaults
    next hbelow => exact not_divideFaults_of_below hleft hbelow hfaults.2
    next hbelow =>
      -- what is not near the top and not below it lies above it
      obtain ⟨-, hzero, -⟩ := hfaults
      obtain ⟨hc, hb, hvalue⟩ := Float.sub_beq_zero_iff.1 hzero
      rw [Float.above_congr hc hb hvalue, above, aboveWithin, ← near, hnear, Bool.not_false, Bool.true_and] at hright
      rw [below, belowWithin, ← near, hnear, Bool.not_false, Bool.true_and, decide_eq_true_eq] at hbelow
      exact (Float.lt_or_lt_of_not_near hx hb hnear).elim hbelow (of_decide_eq_false hright)
  | zShape start stop =>
    obtain ⟨hstart, hstop⟩ := isFinite_pair hvalues
    exact parabolaFaults_iff hstart hstop hx

theorem GaussBreaks.cause {mean deviation : Float} (h : GaussBreaks x mean deviation f) :
    SquareFaults (x - mean) f ∨ ∃ y, ¬exponentLimit < y ∧ RaiseFaults y f := by
  unfold GaussBreaks at h
  split at h
  next hlarge => exact .inl ⟨hlarge, h⟩
  next => exact .inr ⟨_, not_exponentLimit_lt_gaussExponent x mean deviation, .inl h⟩

theorem LogisticFaults.cause {inflection slope : Float} (h : LogisticFaults x inflection slope f) :
    ∃ y, ¬exponentLimit < y ∧ RaiseFaults y f := by
  unfold LogisticFaults at h
  split at h
  next => exact h.elim
  next hlimit => exact ⟨_, hlimit, h⟩

/-- Shapes that take the exponential function fault at squares of distances, or where the exponential function itself
does at a number that is not above the limit. -/
theorem Breaks.cause {s : Shape Float} (hs : s.Raises) (h : s.Breaks x f) :
    (∃ v ∈ s.values, SquareFaults (x - v) f) ∨ ∃ y, ¬exponentLimit < y ∧ RaiseFaults y f := by
  cases s with
  | gaussian mean deviation => exact h.2.cause.imp_left fun h => ⟨mean, by simp [values], h⟩
  | gaussianProduct meanA deviationA meanB deviationB =>
    rcases h with ⟨-, ⟨-, hleft⟩ | ⟨-, -, -, hright⟩⟩
    · exact hleft.cause.imp_left fun h => ⟨meanA, by simp [values], h⟩
    · exact hright.cause.imp_left fun h => ⟨meanB, by simp [values], h⟩
  | sigmoid inflection slope => exact .inr (LogisticFaults.cause h)
  | sigmoidDifference left rising falling right => exact .inr (h.elim LogisticFaults.cause fun h => h.2.cause)
  | sigmoidProduct left rising falling right => exact .inr (h.elim LogisticFaults.cause fun h => h.2.cause)
  | spike center width => exact .inr ⟨_, not_exponentLimit_lt_spikeExponent x center width, .inl h.2⟩
  | _ => exact hs.elim

end Shape

/-! ## §5 Terms -/

namespace Term

/-- For finite parameters and every crisp value, a term has a degree unless its shape has no points or one of its steps
is not guarded. The exponential function is never taken of a number above the limit. -/
theorem membership_breaks {t : Term Float} {s : Shape Float} {height : Float} (hbody : t.body = .shape s height)
    (hvalues : ∀ v ∈ s.values, isFinite v = true) (around : Option (Surroundings Float)) (x : Float) :
    ((∃ y, t.membership around x = .ok y) ↔ isNaN x = true ∨ s.isBlank = false ∧ ∀ f, ¬s.Breaks x f) ∧
    (∀ err, t.membership around x = .error err ↔ isNaN x = false ∧
      if s.isBlank then err = .evaluation (.noPoints t.name.asText) else ∃ f, err = .fault f ∧ s.Breaks x f) ∧
    (s.Raises → ∀ f, s.Breaks x f →
      (∃ v ∈ s.values, SquareFaults (x - v) f) ∨ ∃ y, ¬Shape.exponentLimit < y ∧ Shape.RaiseFaults y f) := by
  have herror : ∀ err, t.membership around x = .error err ↔ isNaN x = false ∧
      if s.isBlank then err = .evaluation (.noPoints t.name.asText) else ∃ f, err = .fault f ∧ s.Breaks x f := by
    intro err
    simp only [membership, hbody, Shape.membership]
    cases hnan : isNaN x with
    | true => simp
    | false =>
      cases hblank : s.isBlank with
      | true => simp [eq_comm]
      | false =>
        have hfaults : ∀ f, s.degree height x = .error f ↔ s.Breaks x f := fun f =>
          Shape.degree_eq_error_iff.trans (Shape.faults_iff_breaks hvalues hnan hblank)
        simp only [Bool.false_eq_true, if_false, true_and, ← hfaults]
        cases s.degree height x with
        | ok y => simp [liftM_ok]
        | error g => simp [liftM_error, eq_comm]
  refine ⟨?_, herror, fun hs f => Shape.Breaks.cause hs⟩
  rw [Shape.exists_ok_iff]
  simp only [ne_eq, herror]
  cases isNaN x with
  | true => simp
  | false =>
    cases s.isBlank with
    | true => simp
    | false =>
      simp only [Bool.false_eq_true, if_false, true_and, false_or]
      constructor
      · intro h f hf
        exact h _ ⟨f, rfl, hf⟩
      · rintro h err ⟨f, -, hf⟩
        exact h f hf

/-- A cosine of no width. -/
def thread : Term Float := ⟨0, .text "thread", .shape (.cosine 0.5 0.0) 1.0⟩

/-- A bell curve around zero. -/
def mound : Term Float := ⟨1, .text "mound", .shape (.gaussian 0.0 1.0) 1.0⟩

/-- A concave curve whose end is before its inflection, but not by the tolerance. -/
def turned : Term Float := ⟨2, .text "turned", .shape (.concave (-0.999999999) (-1.0)) 1.0⟩

/-- A step so far out that its middle is infinite. -/
def cliff : Term Float := ⟨3, .text "cliff", .shape (.sShape 1e308 1e308) 1.0⟩

/-- A triangle of no width. -/
def needle : Term Float := ⟨4, .text "needle", .shape (.triangle 0.5 0.5 0.5) 1.0⟩

/-- Cosines of no width, distances that are too large to be squared, concave curves that are taken for rising ones and
steps too far out stop the degree of a term; triangles of no width do not. -/
theorem membership_breaks_edges :
    thread.membership none 0.5 = .error (.fault .zeroDivision) ∧
    mound.membership none 1e200 = .error (.fault .overflow) ∧
    turned.membership none (-1.000000001) = .error (.fault .zeroDivision) ∧
    cliff.membership none 1.5e308 = .error (.fault .zeroDivision) ∧
    ∀ x, ∃ y, needle.membership none x = .ok y := by
  refine ⟨?_, ?_, ?_, ?_, fun x => ?_⟩
  · exact ((membership_breaks (t := thread) rfl (by decide) none 0.5).2.1 _).2
      ⟨by decide, _, rfl, by decide +kernel, rfl⟩
  · exact ((membership_breaks (t := mound) rfl (by decide) none 1e200).2.1 _).2
      ⟨by decide +kernel, _, rfl, by decide, by
        rw [Shape.GaussBreaks, if_pos (by decide +kernel)]⟩
  · exact ((membership_breaks (t := turned) rfl (by decide) none (-1.000000001)).2.1 _).2
      ⟨by decide +kernel, _, rfl, rfl, by decide +kernel⟩
  · exact ((membership_breaks (t := cliff) rfl (by decide +kernel) none 1.5e308).2.1 _).2
      ⟨by decide +kernel, _, rfl, rfl, by decide +kernel, by decide +kernel, by decide +kernel⟩
  · exact (membership_breaks (t := needle) rfl (by decide) none x).1.2 (.inr ⟨rfl, fun _ h => h⟩)

end Term

end FuzzyInference
