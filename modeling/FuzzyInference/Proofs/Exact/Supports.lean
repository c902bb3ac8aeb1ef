import FuzzyInference.FuzzySet.Cumulative
import FuzzyInference.Proofs.Exact.Norms
import FuzzyInference.Proofs.Exact.Polyline

/-!
# Supports

A shape names an interval, its support. Off the interval by the tolerance or more, every shape but a discrete one is
zero; ends of the interval may be infinite, and of reversed intervals every number is off. A discrete shape is flat
outside its points, so that it is zero there only if its first and its last point are.

A cumulative set keeps the least interval that covers the supports of its terms. Off this interval, a number is off
the supports of all terms, after whatever was appended and cleared, so that the set is zero if the terms are.

The plan of this module:

* comparison with ends that may be infinite;
* the degree off the support, shape by shape;
* the interval of a cumulative set, for one change and for a run of changes.

## Main statements

* `Shape.degree_off_support`: the degree off the support
* `Cumulative.covers_change`: one change keeps the supports of the terms covered
* `Cumulative.membership_off_support`: terms off their supports, and a cumulative set off its interval
-/

namespace FuzzyInference

open Scalar Exact Checked

/-! ## §1 Ends -/

namespace Exact

variable {a b : Exact} {x y : ℝ}

theorem le_iff : a ≤ b ↔ Less a b ∨ Same a b := Iff.rfl

theorem finite_le_of_le (h : finite x ≤ a) (hab : a ≤ b) : finite x ≤ b := by
  cases a <;> cases b <;> simp [le_iff, Less, Same] at h hab ⊢
  -- all that is left are real numbers
  grind

theorem le_finite_of_le (hab : a ≤ b) (h : b ≤ finite x) : a ≤ finite x := by
  cases a <;> cases b <;> simp [le_iff, Less, Same] at h hab ⊢
  grind

/-- No real number is near an infinity. -/
theorem near_infinite (x : ℝ) : near (finite x) posInf = false ∧ near (finite x) negInf = false := by
  have hpos : (finite x == posInf) = false := (finite_beq_inf x).1
  have hneg : (finite x == negInf) = false := (finite_beq_inf x).2
  have habs : ¬(posInf : Exact) < finite epsilon := id
  constructor
  · rw [near, nearWithin, hpos, isNaN_finite, tolerance_eq]
    exact decide_eq_false habs
  · rw [near, nearWithin, hneg, isNaN_finite, tolerance_eq]
    exact decide_eq_false habs

/-- A real number that falls short of an end by the tolerance is below it by all comparisons. -/
theorem compare_of_le (h : finite (x + epsilon) ≤ a) :
    below (finite x) a = true ∧ above (finite x) a = false ∧ atMost (finite x) a = true ∧
      atLeast (finite x) a = false := by
  have hpos := epsilon_pos
  cases a with
  | finite y =>
    have hy : x + epsilon ≤ y := finite_le_finite.1 h
    rw [below_finite, above_finite, atMost_finite, atLeast_finite]
    refine ⟨decide_eq_true hy, decide_eq_false ?_, decide_eq_true ?_, decide_eq_false ?_⟩ <;> linarith
  | posInf =>
    have hnear : nearWithin (finite epsilon) (finite x) posInf = false := (near_infinite x).1
    have hlt : finite x < posInf := trivial
    have hgt : ¬posInf < finite x := id
    simp [below, belowWithin, above, aboveWithin, atMost, atMostWithin, atLeast, atLeastWithin, hnear, hlt, hgt]
  | nan => simp [le_iff, Less, Same] at h
  | negInf => simp [le_iff, Less, Same] at h

/-- A real number that exceeds an end by the tolerance is above it by all comparisons. -/
theorem compare_of_ge (h : a ≤ finite (x - epsilon)) :
    below (finite x) a = false ∧ above (finite x) a = true ∧ atMost (finite x) a = false ∧
      atLeast (finite x) a = true := by
  have hpos := epsilon_pos
  cases a with
  | finite y =>
    have hy : y ≤ x - epsilon := finite_le_finite.1 h
    rw [below_finite, above_finite, atMost_finite, atLeast_finite]
    refine ⟨decide_eq_false ?_, decide_eq_true ?_, decide_eq_false ?_, decide_eq_true ?_⟩ <;> linarith
  | negInf =>
    have hnear : nearWithin (finite epsilon) (finite x) negInf = false := (near_infinite x).2
    have hlt : ¬finite x < negInf := id
    have hgt : negInf < finite x := trivial
    simp [below, belowWithin, above, aboveWithin, atMost, atMostWithin, atLeast, atLeastWithin, hnear, hlt, hgt]
  | nan => simp [le_iff, Less, Same] at h
  | posInf => simp [le_iff, Less, Same] at h

/-- The middle of two ends is not above the greater one. -/
theorem middle_le (hab : a ≤ b) (h : b ≤ finite x) : finite half * (a + b) ≤ finite x := by
  have hle := le_finite_of_le hab h
  have hmiddle : finite half * negInf = negInf := by
    change toward (SignType.sign half * -1) = negInf
    rw [sign_pos (by norm_num [half_eq])]
    rfl
  cases a with
  | finite y =>
    cases b with
    | finite z =>
      rw [finite_le_finite] at h hle
      rw [finite_add, finite_mul, finite_le_finite, half_eq]
      linarith
    | negInf => simp [le_iff, Less, Same] at hab
    | _ => simp [le_iff, Less, Same] at h
  | negInf =>
    have hsum : negInf + b = negInf := by
      cases b with
      | finite z => rfl
      | negInf => rfl
      | _ => simp [le_iff, Less, Same] at h
    rw [hsum, hmiddle]
    exact .inl trivial
  | _ => simp [le_iff, Less, Same] at hle

/-- All scalars but `nan` can be compared. -/
theorem le_of_not_lt (ha : a ≠ nan) (hb : b ≠ nan) (h : ¬b < a) : a ≤ b := by
  have hless : ¬Less b a := h
  cases a <;> cases b <;> simp [le_iff, Less, Same] at ha hb hless ⊢
  exact hless.lt_or_eq

/-- A number that falls short of the lesser of two ends falls short of both. -/
theorem finite_le_least (ha : a ≠ nan) (hb : b ≠ nan) (h : finite x ≤ least a b) : finite x ≤ a ∧ finite x ≤ b := by
  unfold least at h
  split at h
  next hlt => exact ⟨finite_le_of_le h (.inl hlt), h⟩
  next hge => exact ⟨h, finite_le_of_le h (le_of_not_lt ha hb hge)⟩

/-- A number that exceeds the greater of two ends exceeds both. -/
theorem greatest_le_finite (ha : a ≠ nan) (hb : b ≠ nan) (h : greatest a b ≤ finite x) :
    a ≤ finite x ∧ b ≤ finite x := by
  unfold greatest at h
  split at h
  next hlt => exact ⟨le_finite_of_le (.inl hlt) h, h⟩
  next hge => exact ⟨h, le_finite_of_le (le_of_not_lt hb ha hge) h⟩

theorem least_ne_nan (ha : a ≠ nan) (hb : b ≠ nan) : least a b ≠ nan := by
  unfold least
  split
  · exact hb
  · exact ha

theorem greatest_ne_nan (ha : a ≠ nan) (hb : b ≠ nan) : greatest a b ≠ nan := by
  unfold greatest
  split
  · exact hb
  · exact ha

theorem not_finite_le_negInf : ¬finite x ≤ negInf := by
  simp [le_iff, Less, Same]

theorem not_posInf_le_finite : ¬posInf ≤ finite x := by
  simp [le_iff, Less, Same]

/-- The number lies off the interval by the tolerance or more. -/
def IsOff (bounds : Exact × Exact) (x : ℝ) : Prop :=
  finite (x + epsilon) ≤ bounds.1 ∨ bounds.2 ≤ finite (x - epsilon)

/-- No number lies off the interval of all numbers. -/
theorem not_isOff_all (x : ℝ) : ¬IsOff (-inf, inf) x := by
  rintro (h | h)
  · exact not_finite_le_negInf h
  · exact not_posInf_le_finite h

/-- Neither end is `nan`. -/
def HasEnds (bounds : Exact × Exact) : Prop := bounds.1 ≠ nan ∧ bounds.2 ≠ nan

end Exact

/-! ## §2 Shapes -/

namespace Shape

/-- The support has ends, and the vertices of a pi-shape are in order. -/
def IsOrdered : Shape Exact → Prop
  | piShape bottomLeft topLeft topRight bottomRight =>
    bottomLeft ≤ topLeft ∧ topLeft ≤ topRight ∧ topRight ≤ bottomRight
  | s => HasEnds s.support

/-- A discrete shape whose first and last point are zero, or any other shape. -/
def Vanishes : Shape Exact → Prop
  | discrete points => (∀ p ∈ points.head?, p.2 = finite 0) ∧ ∀ p ∈ points.getLast?, p.2 = finite 0
  | _ => True

section Degrees

variable {height x : ℝ}

theorem degree_off_piShape {a b c d : Exact} (hab : a ≤ b) (hbc : b ≤ c) (hcd : c ≤ d) (hx : IsOff (a, d) x) :
    (piShape a b c d).degree (finite height) (finite x) = .ok (finite 0) := by
  obtain (hx : finite (x + epsilon) ≤ a) | (hx : d ≤ finite (x - epsilon)) := hx
  · -- on the left, the s-curve has not begun, and neither has the z-curve
    have ha := compare_of_le hx
    have hc := compare_of_le (finite_le_of_le (finite_le_of_le hx hab) hbc)
    simp [degree, sCurve, zCurve, ha.2.2.1, hc.2.2.1]
  · -- on the right, both are over
    have hd := compare_of_ge hx
    have hc := le_finite_of_le hcd hx
    have hb := le_finite_of_le hbc hc
    have hfirst := compare_of_ge (le_finite_of_le hab hb)
    have hmiddle := compare_of_ge (middle_le hab hb)
    have hsecond := compare_of_ge hb
    have hthird := compare_of_ge hc
    have hmiddle' := compare_of_ge (middle_le hcd hx)
    simp [degree, sCurve, zCurve, hfirst.2.2.1, hmiddle.2.2.1, hsecond.1, hthird.2.2.1, hmiddle'.2.2.1, hd.1]

theorem degree_off_ramp {start stop : Exact} (hx : IsOff (ramp start stop).support x) :
    (ramp start stop).degree (finite height) (finite x) = .ok (finite 0) := by
  cases hnear : near start stop with
  | true => simp [degree, hnear]
  | false =>
    by_cases hrises : start < stop
    · have hbelow : below start stop = true := by
        rw [below, belowWithin]
        unfold near at hnear
        rw [hnear, decide_eq_true hrises]
        rfl
      rw [support, if_pos hrises] at hx
      obtain hx | hx := hx
      · simp [degree, hnear, hbelow, (compare_of_le hx).2.2.1]
      · exact absurd hx not_posInf_le_finite
    · have hbelow : below start stop = false := by
        rw [below, belowWithin, decide_eq_false hrises, Bool.and_false]
      rw [support, if_neg hrises] at hx
      obtain hx | hx := hx
      · exact absurd hx not_finite_le_negInf
      · simp [degree, hnear, hbelow, (compare_of_ge hx).2.2.2]

/-- Off its points, a discrete shape is as high as the point at the end where it is. -/
theorem degree_off_discrete {points : List (Exact × Exact)} {first last : Exact × Exact}
    (hfirst : points.head? = some first) (hlast : points.getLast? = some last)
    (hx : IsOff (discrete points).support x) :
    (discrete points).degree (finite height) (finite x) =
      .ok (finite height * if atMost (finite x) first.1 then first.2 else last.2) := by
  simp only [support, hfirst, hlast] at hx
  simp only [degree, hfirst, hlast]
  obtain hx | hx := hx
  · rw [if_pos (compare_of_le hx).2.2.1, if_pos (compare_of_le hx).2.2.1]
  · cases atMost (finite x) first.1 with
    | true => rfl
    | false => rw [if_pos (compare_of_ge hx).2.2.2]; rfl

/-- Off the support, the degree is zero; that of a discrete shape is, if its ends are. -/
theorem degree_off_support {s : Shape Exact} (hs : s.IsOrdered) (hvanishes : s.Vanishes) (hx : IsOff s.support x) :
    s.degree (finite height) (finite x) = .ok (finite 0) := by
  cases s with
  | triangle a b c =>
    obtain (hx : finite (x + epsilon) ≤ a) | (hx : c ≤ finite (x - epsilon)) := hx
    · simp [degree, (compare_of_le hx).1]
    · simp [degree, (compare_of_ge hx).2.1]
  | trapezoid a b c d =>
    obtain (hx : finite (x + epsilon) ≤ a) | (hx : d ≤ finite (x - epsilon)) := hx
    · simp [degree, (compare_of_le hx).1]
    · simp [degree, (compare_of_ge hx).2.1]
  | rectangle start stop =>
    obtain (hx : finite (x + epsilon) ≤ start) | (hx : stop ≤ finite (x - epsilon)) := hx
    · simp [degree, (compare_of_le hx).2.2.2]
    · simp [degree, (compare_of_ge hx).2.2.1]
  | cosine center width =>
    obtain (hx : finite (x + epsilon) ≤ center - 0.5 * width) | (hx : center + 0.5 * width ≤ finite (x - epsilon)) := hx
    · simp only [degree, (compare_of_le hx).1, Bool.true_or, if_true, literal_zero]
    · simp only [degree, (compare_of_ge hx).2.1, Bool.or_true, if_true, literal_zero]
  | ramp start stop => exact degree_off_ramp hx
  | piShape a b c d => exact degree_off_piShape hs.1 hs.2.1 hs.2.2 hx
  | discrete points =>
    cases points with
    | nil => exact absurd rfl hs.1
    | cons p points =>
      have hfirst : (p :: points).head? = some p := rfl
      have hlast := List.getLast?_eq_some_getLast (List.cons_ne_nil p points)
      have hends : (if atMost (finite x) p.1 then p.2 else ((p :: points).getLast (List.cons_ne_nil p points)).2) =
          finite 0 := by
        split
        · exact hvanishes.1 p rfl
        · exact hvanishes.2 _ hlast
      rw [degree_off_discrete hfirst hlast hx, hends, finite_mul, mul_zero]
  | _ => exact absurd hx (not_isOff_all x)

end Degrees

theorem IsOrdered.hasEnds {s : Shape Exact} (hs : s.IsOrdered) : HasEnds s.support := by
  cases s with
  | piShape a b c d =>
    obtain ⟨hab, -, hcd⟩ := hs
    constructor
    · rintro rfl
      simp [le_iff, Less, Same] at hab
    · rintro rfl
      cases c <;> simp [le_iff, Less, Same] at hcd
  | _ => exact hs

theorem IsOrdered.isBlank {s : Shape Exact} (hs : s.IsOrdered) : s.isBlank = false := by
  cases s with
  | discrete points =>
    cases points with
    | nil => exact absurd rfl hs.1
    | cons p points => rfl
  | _ => rfl

end Shape

/-! ## §3 Cumulative sets -/

section

variable {x : ℝ} {t : Term Exact}

/-- A term over an ordered shape that is zero off its support. -/
def Term.IsBounded (t : Term Exact) : Prop :=
  ∃ (s : Shape Exact) (height : ℝ), t.body = .shape s (finite height) ∧ s.IsOrdered ∧ s.Vanishes

theorem Term.support_of_shape {s : Shape Exact} {height : Exact} (ht : t.body = .shape s height) :
    t.support = s.support := by
  simp only [support, ht]

theorem Term.IsBounded.membership (h : t.IsBounded) (around : Option (Surroundings Exact)) (hx : IsOff t.support x) :
    t.membership around (finite x) = .ok (finite 0) := by
  obtain ⟨s, height, ht, hs, hvanishes⟩ := h
  rw [support_of_shape ht] at hx
  rw [membership_of_shape ht hs.isBlank, Shape.degree_off_support hs hvanishes hx, liftM_ok]

theorem Term.IsBounded.hasEnds (h : t.IsBounded) : HasEnds t.support := by
  obtain ⟨s, height, ht, hs, -⟩ := h
  rw [support_of_shape ht]
  exact hs.hasEnds

end

namespace Cumulative

/-- A change of the terms of a cumulative set. -/
inductive Change (α : Type)
  | append (t : Term α)
  | clear

/-- The set after a change. -/
def change {α : Type} [Scalar α] (s : Cumulative α) : Change α → Cumulative α
  | .append t => s.append t
  | .clear => s.clear

/-- The set after some changes, in order. -/
def changeAll {α : Type} [Scalar α] (s : Cumulative α) (changes : List (Change α)) : Cumulative α :=
  changes.foldl change s

/-- The terms are bounded, and what is off the interval of the set is off their supports. -/
structure Covers (s : Cumulative Exact) : Prop where
  hasEnds : HasEnds (s.minimum, s.maximum)
  isBounded : ∀ t ∈ s.terms, t.IsBounded
  isOff : ∀ t ∈ s.terms, ∀ x, IsOff (s.minimum, s.maximum) x → IsOff t.support x

theorem covers_empty (name : Name) (accumulation : Option SNorm) :
    (empty name accumulation : Cumulative Exact).Covers where
  hasEnds := ⟨nofun, nofun⟩
  isBounded := by simp [empty]
  isOff := by simp [empty]

/-- What is off the interval grown to a support is off the interval and off the support. -/
theorem isOff_append {s : Cumulative Exact} {t : Term Exact} (hs : HasEnds (s.minimum, s.maximum))
    (ht : HasEnds t.support) {x : ℝ} (hx : IsOff ((s.append t).minimum, (s.append t).maximum) x) :
    IsOff (s.minimum, s.maximum) x ∧ IsOff t.support x := by
  obtain hx | hx := hx
  · obtain ⟨hset, hterm⟩ := finite_le_least hs.1 ht.1 hx
    exact ⟨.inl hset, .inl hterm⟩
  · obtain ⟨hset, hterm⟩ := greatest_le_finite hs.2 ht.2 hx
    exact ⟨.inr hset, .inr hterm⟩

/-- A change keeps the terms covered. -/
theorem covers_change {s : Cumulative Exact} (hs : s.Covers) (c : Change Exact)
    (hc : ∀ t, c = .append t → t.IsBounded) : (s.change c).Covers := by
  cases c with
  | append t =>
    have ht := hc t rfl
    have hterms : ∀ u ∈ (s.append t).terms, u ∈ s.terms ∨ u = t := by
      intro u hu
      obtain hu | hu := List.mem_append.1 hu
      · exact .inl hu
      · exact .inr (List.mem_singleton.1 hu)
    refine ⟨⟨least_ne_nan hs.hasEnds.1 ht.hasEnds.1, greatest_ne_nan hs.hasEnds.2 ht.hasEnds.2⟩, fun u hu => ?_,
      fun u hu x hx => ?_⟩
    · obtain hu | rfl := hterms u hu
      · exact hs.isBounded u hu
      · exact ht
    · obtain ⟨hset, hterm⟩ := isOff_append hs.hasEnds ht.hasEnds hx
      obtain hu | rfl := hterms u hu
      · exact hs.isOff u hu x hset
      · exact hterm
  | clear => exact covers_empty s.name s.accumulation

/-- So does a run of changes. -/
theorem covers_changeAll {s : Cumulative Exact} (hs : s.Covers) (changes : List (Change Exact))
    (hchanges : ∀ t, .append t ∈ changes → t.IsBounded) : (s.changeAll changes).Covers := by
  induction changes generalizing s with
  | nil => exact hs
  | cons c changes ih =>
    refine ih (covers_change hs c fun t ht => hchanges t (ht ▸ List.mem_cons_self)) fun t ht => ?_
    exact hchanges t (List.mem_cons_of_mem c ht)

/-- Zeros are joined to zero, whatever joins them. -/
theorem join_zero (accumulation : Option SNorm) : join accumulation (finite 0) (finite 0) = .ok (finite 0) := by
  cases accumulation with
  | none => simp [join]
  | some s =>
    have hreal : s.real 0 0 = 0 := by
      cases s <;> simp [SNorm.real, epsilon_pos]
      linarith [epsilon_lt_half]
    have hzero : (0 : ℝ) ∈ s.domain := s.mem_domain ⟨le_rfl, zero_le_one⟩
    rw [join, SNorm.compute_finite hzero hzero, hreal]

theorem joinDegrees_zero (accumulation : Option SNorm) (around : Option (Surroundings Exact)) {x : Exact}
    {ts : List (Term Exact)} (hts : ∀ t ∈ ts, t.membership around x = .ok (finite 0)) :
    joinDegrees accumulation around x (finite 0) ts = .ok (finite 0) := by
  induction ts with
  | nil => rfl
  | cons t ts ih =>
    rw [joinDegrees, hts t List.mem_cons_self, ok_bind, join_zero, liftM_ok, ok_bind]
    exact ih fun u hu => hts u (List.mem_cons_of_mem t hu)

/-- A set that covers its terms is zero off its interval. -/
theorem Covers.membership {s : Cumulative Exact} (hs : s.Covers) (around : Option (Surroundings Exact)) {x : ℝ}
    (hx : IsOff (s.minimum, s.maximum) x) : s.membership around (finite x) = .ok (finite 0) := by
  rw [Cumulative.membership, literal_zero]
  exact joinDegrees_zero _ around fun t ht => (hs.isBounded t ht).membership around (hs.isOff t ht x hx)

/-- Off its support by the tolerance or more, a term over an ordered shape is zero; over a discrete shape, it is as
high as the point at the end where it is. After any changes with terms that are zero off their supports, a cumulative
set is zero off its interval. -/
theorem membership_off_support (around : Option (Surroundings Exact)) (x : ℝ) :
    (∀ (t : Term Exact) (s : Shape Exact) (height : ℝ),
      t.body = .shape s (finite height) → s.IsOrdered → IsOff t.support x →
      (s.Vanishes → t.membership around (finite x) = .ok (finite 0)) ∧
      ∀ points first last, s = .discrete points → points.head? = some first → points.getLast? = some last →
        t.membership around (finite x) =
          .ok (finite height * if atMost (finite x) first.1 then first.2 else last.2)) ∧
    ∀ (name : Name) (accumulation : Option SNorm) (changes : List (Change Exact)),
      (∀ t, .append t ∈ changes → t.IsBounded) →
      IsOff (((empty name accumulation).changeAll changes).minimum,
        ((empty name accumulation).changeAll changes).maximum) x →
      ((empty name accumulation).changeAll changes).membership around (finite x) = .ok (finite 0) := by
  refine ⟨fun t s height ht hs hx => ⟨fun hvanishes => ?_, ?_⟩, fun name accumulation changes hchanges hx => ?_⟩
  · exact Term.IsBounded.membership ⟨s, height, ht, hs, hvanishes⟩ around hx
  · rintro points first last rfl hfirst hlast
    rw [Term.support_of_shape ht] at hx
    rw [Term.membership_of_shape ht hs.isBlank, Shape.degree_off_discrete hfirst hlast hx, liftM_ok]
  · exact (covers_changeAll (covers_empty name accumulation) changes hchanges).membership around hx

/-- A level curve is not zero off its points, and a union of two triangles is zero off them. -/
theorem membership_off_support_level :
    (Term.ofShape (.discrete [(finite 0, finite 1), (finite 1, finite 1)]) 1).membership none (finite 5) =
      .ok (finite 1) ∧
    ((empty (.text "union") (some .algebraicSum)).changeAll
      [.append (Term.ofShape (.triangle (finite 0) (finite 1) (finite 2)) 1), .clear,
        .append (Term.ofShape (.triangle (finite 3) (finite 4) (finite 5)) 1)]).membership none (finite 6) =
      .ok (finite 0) := by
  have hpos := epsilon_pos
  have hsmall := epsilon_lt_half
  constructor
  · have hends : HasEnds (finite 0, finite 1) := ⟨nofun, nofun⟩
    have hoff : IsOff (finite 0, finite 1) 5 := .inr (finite_le_finite.2 (by linarith))
    have hlevel := ((membership_off_support none 5).1
      (Term.ofShape (.discrete [(finite 0, finite 1), (finite 1, finite 1)]) 1) _ 1 rfl hends hoff).2 _ _
      (finite 1, finite 1) rfl rfl rfl
    rw [hlevel, ite_self, finite_mul, mul_one]
  · refine (membership_off_support none 6).2 _ _ _ (fun t ht => ?_) (.inr ?_)
    · have hbounded : ∀ a b c : ℝ, (Term.ofShape (.triangle (finite a) (finite b) (finite c)) 1).IsBounded :=
        fun a b c => ⟨_, 1, rfl, ⟨nofun, nofun⟩, trivial⟩
      simp only [List.mem_cons, Change.append.injEq, reduceCtorEq, List.not_mem_nil, or_false, false_or] at ht
      obtain rfl | rfl := ht
      · exact hbounded 0 1 2
      · exact hbounded 3 4 5
    · show greatest negInf (finite 5) ≤ finite (6 - epsilon)
      rw [greatest, if_pos (show negInf < finite 5 from trivial), finite_le_finite]
      linarith

end Cumulative

end FuzzyInference
