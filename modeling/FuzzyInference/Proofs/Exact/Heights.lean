import FuzzyInference.Proofs.Exact.Inversion
import FuzzyInference.Proofs.Exact.Polyline

/-!
# Heights

The degree of a real number in a shape is a share of the height. For most shapes the share is between zero and one,
so that the degree is between zero and the height. The exceptions come from tolerance. A branch of a curve is also
entered a little outside its interval, where its formula overshoots: triangles and trapezoids go below zero next to
their feet, s-curves rise above one and z-curves fall below zero next to the middle of a short interval, and concave
curves are negative where the inflection is behind the end but not by the tolerance. A curve whose width is taken for
zero is undefined at its center.

The plan of this module:

* shapes over real numbers, which of them are proper, and where they stray;
* the share of the height, shape by shape;
* the degree of a term.

## Main statements

* `Shape.degree_real`: the degree is a share of the height, and undefined at the center of a collapsed curve
* `Term.membership_mem_height`: the degree is between zero and the height exactly where the shape does not stray
-/

namespace FuzzyInference

open Scalar Exact Checked

namespace Shape

/-! ## §1 Shapes over real numbers -/

/-- The shape with its parameters taken over to other scalars. -/
def map {α β : Type} (f : α → β) : Shape α → Shape β
  | bell center width slope => bell (f center) (f width) (f slope)
  | binary start direction => binary (f start) (f direction)
  | concave inflection stop => concave (f inflection) (f stop)
  | cosine center width => cosine (f center) (f width)
  | discrete points => discrete (points.map (Prod.map f f))
  | gaussian mean deviation => gaussian (f mean) (f deviation)
  | gaussianProduct meanA deviationA meanB deviationB =>
    gaussianProduct (f meanA) (f deviationA) (f meanB) (f deviationB)
  | piShape bottomLeft topLeft topRight bottomRight =>
    piShape (f bottomLeft) (f topLeft) (f topRight) (f bottomRight)
  | ramp start stop => ramp (f start) (f stop)
  | rectangle start stop => rectangle (f start) (f stop)
  | sShape start stop => sShape (f start) (f stop)
  | sigmoid inflection slope => sigmoid (f inflection) (f slope)
  | sigmoidDifference left rising falling right => sigmoidDifference (f left) (f rising) (f falling) (f right)
  | sigmoidProduct left rising falling right => sigmoidProduct (f left) (f rising) (f falling) (f right)
  | spike center width => spike (f center) (f width)
  | trapezoid a b c d => trapezoid (f a) (f b) (f c) (f d)
  | triangle a b c => triangle (f a) (f b) (f c)
  | zShape start stop => zShape (f start) (f stop)

/-- The parameters are in order and none of them is degenerate. -/
def IsProper : Shape ℝ → Prop
  | bell _ width slope => width ≠ 0 ∧ 0 < slope
  | cosine _ width => 0 < width
  | discrete points => points ≠ [] ∧ ∀ p ∈ points, p.2 ∈ Set.Icc (0 : ℝ) 1
  | gaussian _ deviation => deviation ≠ 0
  | gaussianProduct _ deviationA _ deviationB => deviationA ≠ 0 ∧ deviationB ≠ 0
  | piShape bottomLeft topLeft topRight bottomRight =>
    bottomLeft < topLeft ∧ topLeft < topRight ∧ topRight < bottomRight
  | sShape start stop | zShape start stop => start < stop
  | sigmoid _ slope => slope ≠ 0
  | sigmoidDifference _ rising falling _ | sigmoidProduct _ rising falling _ => rising ≠ 0 ∧ falling ≠ 0
  | spike _ width => width ≠ 0
  | trapezoid a b c d => a < b ∧ b < c ∧ c < d
  | triangle a b c => a < b ∧ b < c
  | binary .. | concave .. | ramp .. | rectangle .. => True

/-- The first parabola of an s-curve, entered up to the tolerance behind the middle, is above one there. -/
def Overshoots (start stop x : ℝ) : Prop :=
  start + epsilon ≤ x ∧ x < half * (start + stop) + epsilon ∧ half * (stop - start) ^ 2 < (x - start) ^ 2

/-- A width is taken for zero, and a number for the center. -/
def Collapses (center width x : ℝ) : Prop := |width| < epsilon ∧ |x - center| < epsilon

/-- Where the curve of a shape is negative, above one, or undefined. -/
def Strays : Shape ℝ → ℝ → Prop
  | bell center width _, x | spike center width, x | gaussian center width, x => Collapses center width x
  | concave inflection stop, x => stop < inflection ∧ inflection < stop + epsilon ∧ x + epsilon ≤ stop
  | piShape bottomLeft topLeft topRight bottomRight, x =>
    Overshoots bottomLeft topLeft x ∨ Overshoots topRight bottomRight x
  | sShape start stop, x | zShape start stop, x => Overshoots start stop x
  | trapezoid a b _ _, x => a < x + epsilon ∧ x < a ∧ x + epsilon ≤ b
  | triangle a b c, x =>
    (a < x + epsilon ∧ x < a ∧ x + epsilon ≤ b) ∨ (x < c + epsilon ∧ c < x ∧ b + epsilon ≤ x)
  | binary .., _ | cosine .., _ | discrete .., _ | gaussianProduct .., _ | ramp .., _ | rectangle .., _
  | sigmoid .., _ | sigmoidDifference .., _ | sigmoidProduct .., _ => False

/-! ## §2 Shares of the height -/

/-- The degree is a share of the height, whatever the height. -/
def HasShare (s : Shape ℝ) (x share : ℝ) : Prop :=
  ∀ height : ℝ, (s.map finite).degree (finite height) (finite x) = .ok (finite (height * share))

/-- The share is between zero and one exactly where the shape does not stray. -/
def IsTame (s : Shape ℝ) (x : ℝ) : Prop := ∃ share, s.HasShare x share ∧ (s.Strays x ↔ share < 0 ∨ 1 < share)

section Shares

variable {s : Shape ℝ} {x : ℝ}

/-- A share between zero and one, of a shape that does not stray. -/
theorem isTame_of_mem (share : ℝ) (h : s.HasShare x share) (hnonneg : 0 ≤ share) (hle : share ≤ 1) (hs : ¬s.Strays x) :
    s.IsTame x :=
  ⟨share, h, fun h => absurd h hs, fun h => (h.elim hnonneg.not_gt hle.not_gt).elim⟩

end Shares

section Vertices

variable {a b c d start stop inflection x : ℝ}

theorem isTame_triangle (hab : a < b) (hbc : b < c) : (triangle a b c).IsTame x := by
  have hpos := epsilon_pos
  have hrise : b - a ≠ 0 := by linarith
  have hfall : c - b ≠ 0 := by linarith
  by_cases houtside : x + epsilon ≤ a ∨ c + epsilon ≤ x
  · refine isTame_of_mem 0 (fun height => ?_) le_rfl zero_le_one ?_
    · simp [map, degree, houtside]
    · rintro (⟨hleft, hleft', hrise'⟩ | ⟨hright, hright', hfall'⟩)
      · exact houtside.elim (fun h => by linarith) fun h => by linarith
      · exact houtside.elim (fun h => by linarith) fun h => by linarith
  have hinside := houtside
  rw [not_or, not_le, not_le] at hinside
  by_cases htop : |x - b| < Exact.epsilon
  · refine isTame_of_mem 1 (fun height => ?_) zero_le_one le_rfl ?_
    · simp [map, degree, houtside, htop]
    · rw [abs_lt] at htop
      rintro (⟨-, -, h⟩ | ⟨-, -, h⟩) <;> linarith
  by_cases hrising : x + epsilon ≤ b
  · refine ⟨(x - a) / (b - a), fun height => ?_, ?_⟩
    · simp [map, degree, houtside, htop, hrising, hrise, mul_div_assoc]
    · rw [div_lt_iff₀ (by linarith), one_lt_div (by linarith)]
      constructor
      · rintro (⟨-, h, -⟩ | ⟨-, -, h⟩)
        · exact .inl (by linarith)
        · exact absurd h (by linarith)
      · rintro (h | h)
        · exact .inl ⟨hinside.1, by linarith, hrising⟩
        · exact absurd h (by linarith)
  · have hfalling : b + epsilon ≤ x := by
      rw [not_lt, le_abs] at htop
      exact htop.elim (fun h => by linarith) fun h => absurd (by linarith) hrising
    refine ⟨(c - x) / (c - b), fun height => ?_, ?_⟩
    · simp [map, degree, houtside, htop, hrising, hfall, mul_div_assoc]
    · rw [div_lt_iff₀ (by linarith), one_lt_div (by linarith)]
      constructor
      · rintro (⟨-, -, h⟩ | ⟨-, h, -⟩)
        · exact absurd h hrising
        · exact .inl (by linarith)
      · rintro (h | h)
        · exact .inr ⟨hinside.2, by linarith, hfalling⟩
        · exact absurd h (by linarith)

theorem isTame_trapezoid (hab : a < b) (hbc : b < c) (hcd : c < d) : (trapezoid a b c d).IsTame x := by
  have hpos := epsilon_pos
  have hrise : b - a ≠ 0 := by linarith
  have hfall : d - c ≠ 0 := by linarith
  by_cases houtside : x + epsilon ≤ a ∨ d + epsilon ≤ x
  · refine isTame_of_mem 0 (fun height => ?_) le_rfl zero_le_one ?_
    · simp [map, degree, houtside]
    · rintro ⟨hleft, hleft', hrise'⟩
      exact houtside.elim (fun h => by linarith) fun h => by linarith
  have hinside := houtside
  rw [not_or, not_le, not_le] at hinside
  by_cases hrising : x + epsilon ≤ b
  · refine ⟨min 1 ((x - a) / (b - a)), fun height => ?_, ?_⟩
    · simp [map, degree, houtside, hrising, hrise]
    · have hle : ¬1 < min 1 ((x - a) / (b - a)) := not_lt.2 (min_le_left _ _)
      rw [or_iff_left hle, min_lt_iff, or_iff_right (not_lt.2 zero_le_one), div_lt_iff₀ (by linarith)]
      constructor
      · rintro ⟨-, h, -⟩
        linarith
      · intro h
        exact ⟨hinside.1, by linarith, hrising⟩
  have hstrays : ¬(trapezoid a b c d).Strays x := fun h => hrising h.2.2
  by_cases htop : x < c + epsilon
  · refine isTame_of_mem 1 (fun height => ?_) zero_le_one le_rfl hstrays
    simp [map, degree, houtside, hrising, htop]
  by_cases hfalling : x + epsilon ≤ d
  · refine isTame_of_mem ((d - x) / (d - c)) (fun height => ?_) ?_ ?_ hstrays
    · simp [map, degree, houtside, hrising, htop, hfalling, hfall, mul_div_assoc]
    · exact div_nonneg (by linarith) (by linarith)
    · rw [div_le_one (by linarith)]
      linarith
  · refine isTame_of_mem 0 (fun height => ?_) le_rfl zero_le_one hstrays
    simp [map, degree, houtside, hrising, htop, hfalling]

theorem isTame_ramp : (ramp start stop).IsTame x := by
  have hpos := epsilon_pos
  have hstrays : ¬(ramp start stop).Strays x := id
  by_cases hnear : |start - stop| < Exact.epsilon
  · refine isTame_of_mem 0 (fun height => ?_) le_rfl zero_le_one hstrays
    simp [map, degree, hnear]
  by_cases hrises : start + epsilon ≤ stop
  · have hwidth : stop - start ≠ 0 := by linarith
    by_cases hlow : x < start + epsilon
    · refine isTame_of_mem 0 (fun height => ?_) le_rfl zero_le_one hstrays
      simp [map, degree, hnear, hrises, hlow]
    by_cases hhigh : stop < x + epsilon
    · refine isTame_of_mem 1 (fun height => ?_) zero_le_one le_rfl hstrays
      simp [map, degree, hnear, hrises, hlow, hhigh]
    refine isTame_of_mem ((x - start) / (stop - start)) (fun height => ?_) ?_ ?_ hstrays
    · simp [map, degree, hnear, hrises, hlow, hhigh, hwidth, mul_div_assoc]
    · exact div_nonneg (by linarith) (by linarith)
    · rw [div_le_one (by linarith)]
      linarith
  · have hfalls : stop + epsilon ≤ start := by
      rw [not_lt, le_abs] at hnear
      exact hnear.elim (fun h => by linarith) fun h => absurd (by linarith) hrises
    have hwidth : start - stop ≠ 0 := by linarith
    by_cases hlow : start < x + epsilon
    · refine isTame_of_mem 0 (fun height => ?_) le_rfl zero_le_one hstrays
      simp [map, degree, hnear, hrises, hlow]
    by_cases hhigh : x < stop + epsilon
    · refine isTame_of_mem 1 (fun height => ?_) zero_le_one le_rfl hstrays
      simp [map, degree, hnear, hrises, hlow, hhigh]
    refine isTame_of_mem ((start - x) / (start - stop)) (fun height => ?_) ?_ ?_ hstrays
    · simp [map, degree, hnear, hrises, hlow, hhigh, hwidth, mul_div_assoc]
    · exact div_nonneg (by linarith) (by linarith)
    · rw [div_le_one (by linarith)]
      linarith

theorem isTame_concave : (concave inflection stop).IsTame x := by
  have hpos := epsilon_pos
  by_cases hrises : inflection < stop + epsilon
  · by_cases hbefore : x + epsilon ≤ stop
    · have hdivisor : 0 < 2 * stop - inflection - x := by linarith
      refine ⟨(stop - inflection) / (2 * stop - inflection - x), fun height => ?_, ?_⟩
      · simp [map, degree, hrises, hbefore, hdivisor.ne', mul_div_assoc]
      · rw [div_lt_iff₀ hdivisor, one_lt_div hdivisor]
        constructor
        · rintro ⟨h, -, -⟩
          exact .inl (by linarith)
        · rintro (h | h)
          · exact ⟨by linarith, hrises, hbefore⟩
          · exact absurd h (by linarith)
    · refine isTame_of_mem 1 (fun height => ?_) zero_le_one le_rfl fun h => hbefore h.2.2
      simp [map, degree, hrises, hbefore]
  · have hstrays : ¬(concave inflection stop).Strays x := fun h => hrises h.2.1
    by_cases hbehind : stop + epsilon ≤ x
    · have hdivisor : 0 < inflection - 2 * stop + x := by linarith
      refine isTame_of_mem ((inflection - stop) / (inflection - 2 * stop + x)) (fun height => ?_) ?_ ?_
        hstrays
      · simp [map, degree, hrises, hbehind, hdivisor.ne', mul_div_assoc]
      · exact div_nonneg (by linarith) hdivisor.le
      · rw [div_le_one hdivisor]
        linarith
    · refine isTame_of_mem 1 (fun height => ?_) zero_le_one le_rfl hstrays
      simp [map, degree, hrises, hbehind]

theorem isTame_binary : (binary start stop).IsTame x := by
  have hstrays : ¬(binary start stop).Strays x := id
  by_cases hright : start < stop ∧ start < x + epsilon
  · refine isTame_of_mem 1 (fun height => ?_) zero_le_one le_rfl hstrays
    simp [map, degree, hright]
  by_cases hleft : stop < start ∧ x < start + epsilon
  · refine isTame_of_mem 1 (fun height => ?_) zero_le_one le_rfl hstrays
    simp [map, degree, hright, hleft]
  · refine isTame_of_mem 0 (fun height => ?_) le_rfl zero_le_one hstrays
    simp [map, degree, hright, hleft]

theorem isTame_rectangle : (rectangle start stop).IsTame x := by
  have hstrays : ¬(rectangle start stop).Strays x := id
  by_cases hinside : start < x + epsilon ∧ x < stop + epsilon
  · refine isTame_of_mem 1 (fun height => ?_) zero_le_one le_rfl hstrays
    simp [map, degree, hinside]
  · refine isTame_of_mem 0 (fun height => ?_) le_rfl zero_le_one hstrays
    simp [map, degree, hinside]

end Vertices

/-! ## §3 Parabolas -/

section Parabolas

variable {start stop x : ℝ}

/-- The s-curve is never negative, the z-curve is what it leaves of one, and both stay between zero and one where
the first parabola is not entered too far behind the middle. -/
theorem curves_real (h : start < stop) (x : ℝ) :
    ∃ v, sCurve (finite x) (finite start) (finite stop) = .ok (finite v) ∧
      zCurve (finite x) (finite start) (finite stop) = .ok (finite (1 - v)) ∧
      0 ≤ v ∧ (1 < v ↔ Overshoots start stop x) := by
  have hpos := epsilon_pos
  have hwidth : 0 < stop - start := by linarith
  by_cases hlow : x < start + epsilon
  · refine ⟨0, by simp [sCurve, hlow], by simp [zCurve, hlow], le_rfl, fun h => ?_, fun h => ?_⟩
    · exact absurd h (by norm_num)
    · exact absurd h.1 (not_le.2 hlow)
  by_cases hmiddle : x < half * (start + stop) + epsilon
  · refine ⟨2 * ((x - start) / (stop - start)) ^ 2, by simp [sCurve, hlow, hmiddle, hwidth.ne'],
      by simp [zCurve, hlow, hmiddle, hwidth.ne'], by positivity, ?_⟩
    have hshare : 1 < 2 * ((x - start) / (stop - start)) ^ 2 ↔ half * (stop - start) ^ 2 < (x - start) ^ 2 := by
      rw [div_pow, mul_div_assoc', one_lt_div (pow_pos hwidth 2), half_eq]
      exact ⟨fun h => by linarith, fun h => by linarith⟩
    rw [hshare]
    exact ⟨fun h => ⟨by linarith, hmiddle, h⟩, fun h => h.2.2⟩
  have hovershoots : ¬Overshoots start stop x := fun h => hmiddle h.2.1
  have hbehind : (start + stop) / 2 + epsilon ≤ x := by
    rw [half_eq] at hmiddle
    linarith
  by_cases hhigh : x + epsilon ≤ stop
  · obtain ⟨hs, hz⟩ := curves_upper hbehind hhigh
    have hquotient : ((x - stop) / (stop - start)) ^ 2 ≤ 1 / 4 := by
      rw [div_pow, div_le_iff₀ (pow_pos hwidth 2)]
      nlinarith
    refine ⟨1 - 2 * ((x - stop) / (stop - start)) ^ 2, hs, ?_, by linarith, fun h => ?_, fun h => ?_⟩
    · rw [hz, sub_sub_cancel]
    · exact absurd h (by linarith [sq_nonneg ((x - stop) / (stop - start))])
    · exact absurd h hovershoots
  · refine ⟨1, by simp [sCurve, hlow, hmiddle, hhigh], by simp [zCurve, hlow, hmiddle, hhigh], zero_le_one,
      fun h => ?_, fun h => ?_⟩
    · exact absurd h (lt_irrefl 1)
    · exact absurd h hovershoots

theorem isTame_sShape (h : start < stop) : (sShape start stop).IsTame x := by
  obtain ⟨v, hs, -, hnonneg, hone⟩ := curves_real h x
  refine ⟨v, fun height => by simp [map, degree, hs], ?_⟩
  rw [or_iff_right (not_lt.2 hnonneg), hone]
  rfl

theorem isTame_zShape (h : start < stop) : (zShape start stop).IsTame x := by
  obtain ⟨v, -, hz, hnonneg, hone⟩ := curves_real h x
  refine ⟨1 - v, fun height => by simp [map, degree, hz], ?_⟩
  rw [or_iff_left (by linarith), sub_neg, hone]
  rfl

theorem isTame_piShape {a b c d : ℝ} (hab : a < b) (hbc : b < c) (hcd : c < d) : (piShape a b c d).IsTame x := by
  have hpos := epsilon_pos
  obtain ⟨v, hs, -, hv, hvone⟩ := curves_real hab x
  obtain ⟨w, -, hz, hw, hwone⟩ := curves_real hcd x
  have hshare : (piShape a b c d).HasShare x (v * (1 - w)) := fun height => by
    simp [map, degree, hs, hz, mul_assoc]
  by_cases hleft : Overshoots a b x
  · -- the right half has not begun yet
    have hbefore : x < c + epsilon := by
      have hmiddle := hleft.2.1
      rw [half_eq] at hmiddle
      linarith
    have hwzero : w = 0 := by
      simp [zCurve, hbefore] at hz
      linarith
    refine ⟨v * (1 - w), hshare, fun _ => .inr ?_, fun _ => .inl hleft⟩
    rw [hwzero, sub_zero, mul_one]
    exact hvone.2 hleft
  by_cases hright : Overshoots c d x
  · -- the left half is over
    have hstart := hright.1
    have hfar : ¬x < a + epsilon := by linarith
    have hmiddle : ¬x < half * (a + b) + epsilon := by
      rw [half_eq]
      linarith
    have hbehind : ¬x + epsilon ≤ b := by linarith
    have hvone' : v = 1 := by
      simp [sCurve, hfar, hmiddle, hbehind] at hs
      exact hs.symm
    refine ⟨v * (1 - w), hshare, fun _ => .inl ?_, fun _ => .inr hright⟩
    rw [hvone', one_mul, sub_neg]
    exact hwone.2 hright
  · have hvle : v ≤ 1 := not_lt.1 (mt hvone.1 hleft)
    have hwle : w ≤ 1 := not_lt.1 (mt hwone.1 hright)
    refine isTame_of_mem _ hshare (mul_nonneg hv (by linarith)) ?_ fun h => h.elim hleft hright
    exact mul_le_one₀ hvle (by linarith) (by linarith)

end Parabolas

/-! ## §4 Exponentials, powers and points -/

/-- The shape has no degree but `nan`. -/
def IsUndefined (s : Shape ℝ) (x : ℝ) : Prop :=
  s.Strays x ∧ ∀ height : ℝ, (s.map finite).degree (finite height) (finite x) = .ok Exact.nan

section Exponentials

variable {center width slope x : ℝ}

theorem gaussCurve_real (x center : ℝ) (h : width ≠ 0) :
    ∃ v, gaussCurve (finite x) (finite center) (finite width) = .ok (finite v) ∧ 0 ≤ v ∧ v ≤ 1 := by
  have hdivisor : 2 * width * width ≠ 0 := by positivity
  refine ⟨Real.exp (-(x - center) ^ 2 / (2 * width * width)), ?_, (Real.exp_pos _).le, ?_⟩
  · have hneg : -finite ((x - center) ^ 2) = finite (-(x - center) ^ 2) := rfl
    simp only [gaussCurve, finite_sub, square_finite, ok_bind, literal_two, finite_mul, hneg, divide_finite hdivisor,
      apply_exp_finite]
  · rw [Real.exp_le_one_iff, mul_assoc, ← pow_two]
    exact div_nonpos_of_nonpos_of_nonneg (neg_nonpos.2 (sq_nonneg _)) (by positivity)

theorem logistic_real (x inflection slope : ℝ) :
    ∃ v, logistic (finite x) (finite inflection) (finite slope) = .ok (finite v) ∧ 0 ≤ v ∧ v ≤ 1 := by
  obtain hraised | hlimit := le_or_gt (-slope * (x - inflection)) 700
  · have hexp := Real.exp_pos (-slope * (x - inflection))
    refine ⟨_, logistic_finite hraised, by positivity, ?_⟩
    rw [div_le_one (by linarith)]
    linarith
  · have hexponent : (exponentLimit : Exact) = finite 700 := by
      change finite (700.0 : ℝ) = finite 700
      norm_num
    have hneg : -finite slope = finite (-slope) := rfl
    refine ⟨0, ?_, le_rfl, zero_le_one⟩
    simp only [logistic, hneg, hexponent, finite_sub, finite_mul, finite_lt_finite, if_pos hlimit, literal_zero]

/-- A curve of a width that is taken for zero is zero, and undefined at its center. -/
theorem isTame_or_isUndefined_of_collapsed {s : Shape ℝ} (hs : s.Strays x ↔ Collapses center width x)
    (hwidth : |width| < Exact.epsilon)
    (hdegree : ∀ height : ℝ, (s.map finite).degree (finite height) (finite x) =
      .ok (finite height * collapsed (finite x) (finite center))) :
    s.IsTame x ∨ s.IsUndefined x := by
  by_cases hcenter : |x - center| < Exact.epsilon
  · refine .inr ⟨hs.2 ⟨hwidth, hcenter⟩, fun height => ?_⟩
    rw [hdegree, collapsed, near_finite, if_pos (decide_eq_true hcenter)]
    rfl
  · refine .inl (isTame_of_mem 0 (fun height => ?_) le_rfl zero_le_one fun h => hcenter (hs.1 h).2)
    rw [hdegree, collapsed, near_finite, if_neg (by simpa using hcenter), literal_zero, finite_mul]

theorem isTame_or_isUndefined_gaussian (h : width ≠ 0) :
    (gaussian center width).IsTame x ∨ (gaussian center width).IsUndefined x := by
  by_cases hwidth : |width| < Exact.epsilon
  · refine isTame_or_isUndefined_of_collapsed Iff.rfl hwidth fun height => ?_
    simp [map, degree, hwidth]
  · obtain ⟨v, hcurve, hnonneg, hle⟩ := gaussCurve_real x center h
    refine .inl (isTame_of_mem _ (fun height => ?_) hnonneg hle fun h => hwidth h.1)
    simp [map, degree, hwidth, hcurve]

theorem isTame_or_isUndefined_spike (h : width ≠ 0) :
    (spike center width).IsTame x ∨ (spike center width).IsUndefined x := by
  by_cases hwidth : |width| < Exact.epsilon
  · refine isTame_or_isUndefined_of_collapsed Iff.rfl hwidth fun height => ?_
    simp [map, degree, hwidth]
  · have hten : (10.0 : Exact) = finite 10 := by
      change finite (10.0 : ℝ) = finite 10
      norm_num
    have hneg : -finite |10 / width * (x - center)| = finite (-|10 / width * (x - center)|) := rfl
    refine .inl (isTame_of_mem (Real.exp (-|10 / width * (x - center)|)) (fun height => ?_)
      (Real.exp_pos _).le ?_ fun h => hwidth h.1)
    · simp [map, degree, hwidth, hten, h, hneg, -abs_mul]
    · rw [Real.exp_le_one_iff]
      exact neg_nonpos.2 (abs_nonneg _)

theorem power_finite {a b : ℝ} (ha : 0 ≤ a) (hb : 0 < b) : power (finite a) (finite b) = .ok (finite (a ^ b)) := by
  have hpow : Scalar.pow (finite a) (finite b) = finite (a ^ b) := by
    change powReal a b = _
    obtain rfl | hpos := ha.eq_or_lt
    · rw [powReal, if_neg (lt_irrefl 0), if_pos rfl, if_pos hb, Real.zero_rpow hb.ne']
    · rw [powReal, if_pos hpos]
  unfold power
  simp only [hpow, isNaN_finite, isInf_finite, Bool.false_eq_true, if_false, ite_self]

theorem isTame_or_isUndefined_bell (hne : width ≠ 0) (hslope : 0 < slope) :
    (bell center width slope).IsTame x ∨ (bell center width slope).IsUndefined x := by
  by_cases hwidth : |width| < Exact.epsilon
  · refine isTame_or_isUndefined_of_collapsed (Iff.refl (Collapses center width x)) hwidth fun height => ?_
    simp [map, degree, hwidth]
  · have hpower := power_finite (abs_nonneg ((x - center) / width)) (by linarith : 0 < 2 * slope)
    have hnonneg : 0 ≤ |(x - center) / width| ^ (2 * slope) := Real.rpow_nonneg (abs_nonneg _) _
    have hdivisor : 0 < 1 + |(x - center) / width| ^ (2 * slope) := by linarith
    refine .inl (isTame_of_mem (1 / (1 + |(x - center) / width| ^ (2 * slope))) (fun height => ?_)
      (by positivity) ?_ fun h => hwidth h.1)
    · simp [map, degree, hwidth, hne, hpower, hdivisor.ne', ← div_eq_mul_inv]
    · rw [div_le_one hdivisor]
      linarith

theorem isTame_gaussianProduct {meanA deviationA meanB deviationB : ℝ} (hA : deviationA ≠ 0) (hB : deviationB ≠ 0) :
    (gaussianProduct meanA deviationA meanB deviationB).IsTame x := by
  have hstrays : ¬(gaussianProduct meanA deviationA meanB deviationB).Strays x := id
  obtain ⟨v, hleft, hv, hvone⟩ := gaussCurve_real x meanA hA
  obtain ⟨w, hright, hw, hwone⟩ := gaussCurve_real x meanB hB
  by_cases hzero : x + epsilon ≤ meanA ∧ |deviationA| < Exact.epsilon
  · refine isTame_of_mem 0 (fun height => ?_) le_rfl zero_le_one hstrays
    simp [map, degree, hzero]
  by_cases hzero' : meanB + epsilon ≤ x ∧ |deviationB| < Exact.epsilon
  · refine isTame_of_mem 0 (fun height => ?_) le_rfl zero_le_one hstrays
    by_cases hA' : x + Exact.epsilon ≤ meanA <;> simp [map, degree, hA', hleft, hzero']
  -- each half counts on its own side only
  obtain ⟨a, ha⟩ : ∃ a, a = if x + epsilon ≤ meanA then v else 1 := ⟨_, rfl⟩
  obtain ⟨b, hb⟩ : ∃ b, b = if meanB + epsilon ≤ x then w else 1 := ⟨_, rfl⟩
  have hamem : 0 ≤ a ∧ a ≤ 1 := by
    rw [ha]
    split_ifs
    · exact ⟨hv, hvone⟩
    · exact ⟨zero_le_one, le_rfl⟩
  have hbmem : 0 ≤ b ∧ b ≤ 1 := by
    rw [hb]
    split_ifs
    · exact ⟨hw, hwone⟩
    · exact ⟨zero_le_one, le_rfl⟩
  refine isTame_of_mem (a * b) (fun height => ?_) (mul_nonneg hamem.1 hbmem.1)
    (mul_le_one₀ hamem.2 hbmem.1 hbmem.2) hstrays
  rw [not_and] at hzero hzero'
  by_cases hA' : x + Exact.epsilon ≤ meanA
  · by_cases hB' : meanB + Exact.epsilon ≤ x
    · simp [map, degree, ha, hb, hA', hzero hA', hleft, hB', hzero' hB', hright, mul_assoc]
    · simp [map, degree, ha, hb, hA', hzero hA', hleft, hB']
  · by_cases hB' : meanB + Exact.epsilon ≤ x
    · simp [map, degree, ha, hb, hA', hB', hzero' hB', hright]
    · simp [map, degree, ha, hb, hA', hB']

theorem isTame_sigmoid (inflection slope : ℝ) : (sigmoid inflection slope).IsTame x := by
  obtain ⟨v, hcurve, hnonneg, hle⟩ := logistic_real x inflection slope
  refine isTame_of_mem _ (fun height => ?_) hnonneg hle id
  simp [map, degree, hcurve]

theorem isTame_sigmoidDifference (left rising falling right : ℝ) :
    (sigmoidDifference left rising falling right).IsTame x := by
  obtain ⟨v, hleft, hv, hvone⟩ := logistic_real x left rising
  obtain ⟨w, hright, hw, hwone⟩ := logistic_real x right falling
  refine isTame_of_mem (|v - w|) (fun height => ?_) (abs_nonneg _) ?_ id
  · simp [map, degree, hleft, hright]
  · rw [abs_le]
    exact ⟨by linarith, by linarith⟩

theorem isTame_sigmoidProduct (left rising falling right : ℝ) :
    (sigmoidProduct left rising falling right).IsTame x := by
  obtain ⟨v, hleft, hv, hvone⟩ := logistic_real x left rising
  obtain ⟨w, hright, hw, hwone⟩ := logistic_real x right falling
  refine isTame_of_mem (v * w) (fun height => ?_) (mul_nonneg hv hw) (mul_le_one₀ hvone hw hwone) id
  simp [map, degree, hleft, hright, mul_assoc]

theorem isTame_cosine (h : 0 < width) : (cosine center width).IsTame x := by
  have hstrays : ¬(cosine center width).Strays x := id
  by_cases houtside : x + epsilon ≤ center - half * width ∨ center + half * width + epsilon ≤ x
  · refine isTame_of_mem 0 (fun height => ?_) le_rfl zero_le_one hstrays
    simp [map, degree, houtside]
  · have hpi : (pi : Exact) = finite Real.pi := rfl
    have hcos : ∀ r : ℝ, Scalar.apply .cos (finite r) = .ok (finite (Real.cos r)) := fun r => apply_finite rfl
    have hlow := Real.neg_one_le_cos (2 / width * Real.pi * (x - center))
    have hhigh := Real.cos_le_one (2 / width * Real.pi * (x - center))
    refine isTame_of_mem (half * (1 + Real.cos (2 / width * Real.pi * (x - center)))) (fun height => ?_)
      ?_ ?_ hstrays
    · simp [map, degree, houtside, h.ne', hpi, hcos, mul_assoc]
    · rw [half_eq]
      linarith
    · rw [half_eq]
      linarith

theorem isTame_discrete {points : List (ℝ × ℝ)} (hne : points ≠ [])
    (hunit : ∀ p ∈ points, p.2 ∈ Set.Icc (0 : ℝ) 1) : (discrete points).IsTame x := by
  have hstrays : ¬(discrete points).Strays x := id
  have hmap : (discrete points).map finite = polyline points := rfl
  have hfirst := List.head?_eq_some_head hne
  have hlast := List.getLast?_eq_some_getLast hne
  obtain ⟨hfirstnonneg, hfirstle⟩ := hunit _ (List.head_mem hne)
  obtain ⟨hlastnonneg, hlastle⟩ := hunit _ (List.getLast_mem hne)
  obtain hx | hx := lt_or_ge x ((points.head hne).1 + epsilon)
  · refine isTame_of_mem _ (fun height => ?_) hfirstnonneg hfirstle hstrays
    rw [hmap, degree_polyline_first hfirst hlast hx]
  obtain hx' | hx' := lt_or_ge (points.getLast hne).1 (x + epsilon)
  · refine isTame_of_mem _ (fun height => ?_) hlastnonneg hlastle hstrays
    rw [hmap, degree_polyline_last hfirst hlast hx hx']
  · -- the segment does not depend on the height
    obtain ⟨i, p, q, -, hp, hq, hle, hlt, hdegree⟩ := degree_polyline_between hfirst hlast hx hx'
    obtain ⟨hpnonneg, hple⟩ := hunit p (List.mem_of_getElem? hp)
    obtain ⟨hqnonneg, hqle⟩ := hunit q (List.mem_of_getElem? hq)
    obtain ⟨hlow, hhigh⟩ := chord_mem hle hlt
    refine isTame_of_mem _ (fun height => ?_) (le_trans (le_min hpnonneg hqnonneg) hlow)
      (le_trans hhigh (max_le hple hqle)) hstrays
    rw [hmap, hdegree]

end Exponentials

/-- The degree of a proper shape is a share of the height, between zero and one exactly where the shape does not
stray, or it is undefined where the shape strays. -/
theorem degree_real {s : Shape ℝ} (hs : s.IsProper) (x : ℝ) : s.IsTame x ∨ s.IsUndefined x := by
  cases s with
  | bell center width slope => exact isTame_or_isUndefined_bell hs.1 hs.2
  | binary start direction => exact .inl isTame_binary
  | concave inflection stop => exact .inl isTame_concave
  | cosine center width => exact .inl (isTame_cosine hs)
  | discrete points => exact .inl (isTame_discrete hs.1 hs.2)
  | gaussian mean deviation => exact isTame_or_isUndefined_gaussian hs
  | gaussianProduct meanA deviationA meanB deviationB => exact .inl (isTame_gaussianProduct hs.1 hs.2)
  | piShape bottomLeft topLeft topRight bottomRight => exact .inl (isTame_piShape hs.1 hs.2.1 hs.2.2)
  | ramp start stop => exact .inl isTame_ramp
  | rectangle start stop => exact .inl isTame_rectangle
  | sShape start stop => exact .inl (isTame_sShape hs)
  | sigmoid inflection slope => exact .inl (isTame_sigmoid inflection slope)
  | sigmoidDifference left rising falling right => exact .inl (isTame_sigmoidDifference left rising falling right)
  | sigmoidProduct left rising falling right => exact .inl (isTame_sigmoidProduct left rising falling right)
  | spike center width => exact isTame_or_isUndefined_spike hs
  | trapezoid a b c d => exact .inl (isTame_trapezoid hs.1 hs.2.1 hs.2.2)
  | triangle a b c => exact .inl (isTame_triangle hs.1 hs.2)
  | zShape start stop => exact .inl (isTame_zShape hs)

end Shape

/-! ## §5 Terms -/

namespace Term

open Shape

/-- A proper shape has a degree between zero and the height wherever it does not stray; this is so for every height
that is not negative. Where it strays, the degree is not between zero and the height, unless the height is zero. -/
theorem membership_mem_height (t : Term Exact) {s : Shape ℝ} {height : ℝ}
    (ht : t.body = .shape (s.map finite) (finite height)) (hs : s.IsProper) (hheight : 0 ≤ height)
    (around : Option (Surroundings Exact)) (x : ℝ) :
    (¬s.Strays x → ∃ y ∈ Set.Icc 0 height, t.membership around (finite x) = .ok (finite y)) ∧
    (s.Strays x → 0 < height → ¬∃ y ∈ Set.Icc 0 height, t.membership around (finite x) = .ok (finite y)) := by
  have hblank : (s.map finite).isBlank = false := by
    cases s with
    | discrete points => exact isBlank_polyline (List.head?_eq_some_head hs.1)
    | _ => rfl
  have hmembership := membership_of_shape ht hblank around x
  obtain ⟨share, hshare, hstrays⟩ | ⟨hstrays, hundefined⟩ := degree_real hs x
  · rw [hmembership, hshare, liftM_ok, hstrays]
    refine ⟨fun hunit => ?_, fun houtside hpos => ?_⟩
    · rw [not_or, not_lt, not_lt] at hunit
      exact ⟨_, ⟨mul_nonneg hheight hunit.1, mul_le_of_le_one_right hheight hunit.2⟩, rfl⟩
    · rintro ⟨y, ⟨hnonneg, hle⟩, hy⟩
      obtain rfl : height * share = y := finite_inj.1 (Except.ok.inj hy)
      obtain hnegative | hlarge := houtside
      · exact absurd hnonneg (not_le.2 (mul_neg_of_pos_of_neg hpos hnegative))
      · exact absurd hle (not_le.2 (lt_mul_of_one_lt_right hpos hlarge))
  · rw [hmembership, hundefined, liftM_ok]
    refine ⟨fun hnot => absurd hstrays hnot, fun _ _ => ?_⟩
    rintro ⟨y, -, hy⟩
    cases Except.ok.inj hy

/-- Half the way up an s-curve, and next to the middle of one that is much shorter than the tolerance. -/
theorem membership_mem_height_sShape :
    (∃ y ∈ Set.Icc (0 : ℝ) 1,
      (ofShape ((sShape 0 1).map finite) 1).membership none (finite (1 / 2)) = .ok (finite y)) ∧
    ¬∃ y ∈ Set.Icc (0 : ℝ) 1,
      (ofShape ((sShape 0 (1 / 1000000000000)).map finite) 1).membership none (finite (100025 / 100000000000000)) =
        .ok (finite y) := by
  have hsmall := epsilon_lt_half
  constructor
  · refine (membership_mem_height (ofShape ((sShape 0 1).map finite) 1) rfl (zero_lt_one' ℝ) zero_le_one none
      (1 / 2)).1 ?_
    rintro ⟨-, -, h⟩
    norm_num [half_eq] at h
  · refine (membership_mem_height (ofShape ((sShape 0 (1 / 1000000000000)).map finite) 1) rfl ?_ zero_le_one none
      (100025 / 100000000000000)).2 ?_ zero_lt_one
    · show (0 : ℝ) < 1 / 1000000000000
      norm_num
    · show Overshoots 0 (1 / 1000000000000) (100025 / 100000000000000)
      norm_num [Overshoots, epsilon, half_eq]

end Term

end FuzzyInference
