import FuzzyInference.Proofs.Zeros
import FuzzyInference.Term.Parameters

/-!
# Membership up to the sign of zero

Two terms of one kind whose numbers differ at most by the signs of zeros have the same degrees, again up to the sign of
zero: each curve is put together from operations that keep it so. Points of a discrete curve are found by comparisons,
which choose the same points; the coefficients of a linear term are added up in the same order; and a formula has no
numbers to differ in.

The plan of this module:

* bodies of terms that are alike;
* the pieces of curves;
* the degrees of shapes;
* the degrees of terms.

## Main statements

* `Shape.Alike.degree`: curves
* `Term.membership_alike`: terms
-/

namespace FuzzyInference

open Scalar Checked

/-! ## §1 Bodies that are alike -/

/-- Lists of numbers that are alike at every place. -/
abbrev AllAlike : List Float → List Float → Prop := List.Forall₂ Float.Alike

/-- Shapes of one kind with parameters that are alike. -/
def Shape.Alike (s s' : Shape Float) : Prop := s.kind = s'.kind ∧ AllAlike s.values s'.values

/-- Bodies of one kind with numbers that are alike; a formula has its text and its expression instead. -/
inductive Body.Alike : Body Float → Body Float → Prop
  | shape {s s' : Shape Float} {height height' : Float} (hs : s.Alike s') (hheight : Float.Alike height height') :
    Alike (.shape s height) (.shape s' height')
  | constant {value value' : Float} (h : Float.Alike value value') : Alike (.constant value) (.constant value')
  | linear {coefficients coefficients' : List Float} (h : AllAlike coefficients coefficients') :
    Alike (.linear coefficients) (.linear coefficients')
  | formula {text : String} {root : Option (Formula.Expr Float)} {extra extra' : List (String × Float)} :
    Alike (.formula ⟨text, root, extra⟩) (.formula ⟨text, root, extra'⟩)

/-! ## §2 Pieces of curves -/

section Curves

open SameResult

variable {x x' a a' b b' : Float}

theorem collapsed_alike (hx : Float.Alike x x') (ha : Float.Alike a a') :
    Float.Alike (Shape.collapsed x a) (Shape.collapsed x' a') := by
  rw [Shape.collapsed, Shape.collapsed, hx.near_eq ha]
  exact .refl _

theorem sCurve_alike (hx : Float.Alike x x') (ha : Float.Alike a a') (hb : Float.Alike b b') :
    SameResult (Shape.sCurve x a b) (Shape.sCurve x' a' b') := by
  unfold Shape.sCurve
  rw [hx.atMost_eq ha, hx.atMost_eq ((Float.Alike.refl 0.5).mul (ha.add hb)), hx.below_eq hb]
  refine .ite .rfl (.refl _) (.ite .rfl ?_ (.ite .rfl ?_ (.refl _)))
  · exact (divide (hx.sub ha) (hb.sub ha)).bind fun h => (square h).bind fun h => .ok ((Float.Alike.refl _).mul h)
  · exact (divide (hx.sub hb) (hb.sub ha)).bind fun h => (square h).bind fun h =>
      .ok ((Float.Alike.refl _).sub ((Float.Alike.refl _).mul h))

theorem zCurve_alike (hx : Float.Alike x x') (ha : Float.Alike a a') (hb : Float.Alike b b') :
    SameResult (Shape.zCurve x a b) (Shape.zCurve x' a' b') := by
  unfold Shape.zCurve
  rw [hx.atMost_eq ha, hx.atMost_eq ((Float.Alike.refl 0.5).mul (ha.add hb)), hx.below_eq hb]
  refine .ite .rfl (.refl _) (.ite .rfl ?_ (.ite .rfl ?_ (.refl _)))
  · exact (divide (hx.sub ha) (hb.sub ha)).bind fun h => (square h).bind fun h =>
      .ok ((Float.Alike.refl _).sub ((Float.Alike.refl _).mul h))
  · exact (divide (hx.sub hb) (hb.sub ha)).bind fun h => (square h).bind fun h => .ok ((Float.Alike.refl _).mul h)

theorem logistic_alike (hx : Float.Alike x x') (ha : Float.Alike a a') (hb : Float.Alike b b') :
    SameResult (Shape.logistic x a b) (Shape.logistic x' a' b') := by
  have hexponent : Float.Alike (-b * (x - a)) (-b' * (x' - a')) := hb.neg.mul (hx.sub ha)
  exact .ite ((Float.Alike.refl _).lt_iff hexponent) (.refl _)
    ((apply rfl hexponent).bind fun h => divide (.refl _) ((Float.Alike.refl _).add h))

theorem gaussCurve_alike (hx : Float.Alike x x') (ha : Float.Alike a a') (hb : Float.Alike b b') :
    SameResult (Shape.gaussCurve x a b) (Shape.gaussCurve x' a' b') :=
  (square (hx.sub ha)).bind fun h => (divide h.neg (((Float.Alike.refl _).mul hb).mul hb)).bind fun h => apply rfl h

theorem rescale_alike {c c' d d' : Float} (hx : Float.Alike x x') (ha : Float.Alike a a') (hb : Float.Alike b b')
    (hc : Float.Alike c c') (hd : Float.Alike d d') :
    SameResult (Scalar.rescale x a b c d) (Scalar.rescale x' a' b' c' d') :=
  (divide (hd.sub hc) (hb.sub ha)).bind fun h => .ok ((h.mul (hx.sub ha)).add hc)

end Curves

/-! ## §3 Degrees of shapes -/

namespace Shape

/-- Points whose coordinates are alike. -/
def PointsAlike : List (Float × Float) → List (Float × Float) → Prop :=
  List.Forall₂ fun p p' => Float.Alike p.1 p'.1 ∧ Float.Alike p.2 p'.2

theorem pointsAlike_pairs {points : List (Float × Float)} {vs : List Float}
    (h : AllAlike (discrete points).values vs) : PointsAlike points (pairs vs) := by
  induction points generalizing vs with
  | nil =>
    cases h
    exact .nil
  | cons p points ih =>
    have hvalues : (discrete (p :: points)).values = p.1 :: p.2 :: (discrete points).values := rfl
    rw [hvalues] at h
    obtain _ | ⟨hx, _ | ⟨hy, h⟩⟩ := h
    exact .cons ⟨hx, hy⟩ (ih h)

namespace PointsAlike

variable {points points' : List (Float × Float)} {x x' : Float}

/-- At every place there is either no point, or there are points that are alike. -/
theorem getElem? (h : PointsAlike points points') (i : ℕ) :
    (points[i]? = none ∧ points'[i]? = none) ∨ ∃ p p', points[i]? = some p ∧ points'[i]? = some p' ∧
      Float.Alike p.1 p'.1 ∧ Float.Alike p.2 p'.2 := by
  cases hp : points[i]? with
  | none =>
    refine .inl ⟨rfl, ?_⟩
    rw [List.getElem?_eq_none_iff] at hp ⊢
    rwa [← h.length_eq]
  | some p =>
    obtain ⟨p', hp', halike⟩ := exists_getElem?_of_forall₂ h hp
    exact .inr ⟨p, p', rfl, hp', halike⟩

/-- The same points are on the left of a number. -/
theorem beyond_eq (h : PointsAlike points points') (hx : Float.Alike x x') :
    (fun i => decide (x < (points.map Prod.fst).getD i nan)) =
      fun i => decide (x' < (points'.map Prod.fst).getD i nan) := by
  funext i
  rw [List.getD_eq_getElem?_getD, List.getD_eq_getElem?_getD, List.getElem?_map, List.getElem?_map]
  rcases h.getElem? i with ⟨hp, hp'⟩ | ⟨p, p', hp, hp', hfirst, -⟩
  · rw [hp, hp']
    exact decide_eq_decide.2 (hx.lt_iff (.refl nan))
  · rw [hp, hp']
    exact decide_eq_decide.2 (hx.lt_iff hfirst)

theorem interpolate (h : PointsAlike points points') (hx : Float.Alike x x') :
    SameResult (Shape.interpolate points x) (Shape.interpolate points' x') := by
  unfold Shape.interpolate
  rw [← h.beyond_eq hx, ← h.length_eq]
  dsimp only
  -- the search returns the same place, whichever it is
  generalize bisect _ 0 points.length = upper
  rcases h.getElem? (upper - 1) with ⟨hp, hp'⟩ | ⟨p, p', hp, hp', hpx, hpy⟩
  · rw [hp, hp']
    exact .error _
  rcases h.getElem? upper with ⟨hq, hq'⟩ | ⟨q, q', hq, hq', hqx, hqy⟩
  · rw [hp, hp', hq, hq']
    exact .error _
  · rw [hp, hp', hq, hq']
    exact rescale_alike hx hpx hqx hpy hqy

end PointsAlike

/-- Only a discrete shape can be without points. -/
theorem isBlank_of_kind {s : Shape Float} (hs : s.kind ≠ .discrete) : s.isBlank = false := by
  cases s with
  | discrete points => exact absurd rfl hs
  | _ => rfl

namespace Alike

variable {s s' : Shape Float} {height height' x x' : Float}

/-- A shape that is alike is the one of its kind that its parameters give. -/
theorem exists_values (h : s.Alike s') : ∃ vs, ofValues? s.kind vs = some s' ∧ AllAlike s.values vs :=
  ⟨s'.values, h.1 ▸ ofValues_values s', h.2⟩

/-- The degree of a number in a curve is the same up to the sign of zero. -/
theorem degree (h : s.Alike s') (hheight : Float.Alike height height') (hx : Float.Alike x x') :
    SameResult (s.degree height x) (s'.degree height' x') := by
  obtain ⟨vs, hs', hvs⟩ := h.exists_values
  have hfull := hheight.mul (.refl 1.0)
  -- every case takes the parameters of the other shape out of its list, and then follows the text of the curve
  cases s with
  | bell center width slope =>
    obtain _ | ⟨hc, _ | ⟨hw, _ | ⟨hs, ⟨⟩⟩⟩⟩ := hvs
    cases hs'
    simp only [Shape.degree]
    rw [hw.near_eq (.refl _)]
    refine .ite .rfl (.ok (hheight.mul (collapsed_alike hx hc))) ?_
    refine (SameResult.divide (hx.sub hc) hw).bind fun h => ?_
    -- the base of the power is a distance, which has no sign
    rw [h.abs_eq]
    exact (SameResult.power _ (.mul (.refl _) hs)).bind fun h => .divide hheight (.add (.refl _) h)
  | binary start direction =>
    obtain _ | ⟨hs, _ | ⟨hd, ⟨⟩⟩⟩ := hvs
    cases hs'
    simp only [Shape.degree]
    rw [hx.atLeast_eq hs, hx.atMost_eq hs, decide_eq_decide.2 (hs.lt_iff hd), decide_eq_decide.2 (hd.lt_iff hs)]
    exact .ite .rfl (.ok hfull) (.ite .rfl (.ok hfull) (.refl _))
  | concave i e =>
    obtain _ | ⟨hi, _ | ⟨he, ⟨⟩⟩⟩ := hvs
    cases hs'
    simp only [Shape.degree]
    rw [hi.atMost_eq he, hx.below_eq he, hx.above_eq he]
    have hdouble := Float.Alike.mul (.refl 2.0) he
    refine .ite .rfl (.ite .rfl ?_ (.ok hfull)) (.ite .rfl ?_ (.ok hfull))
    · exact .divide (hheight.mul (he.sub hi)) ((hdouble.sub hi).sub hx)
    · exact .divide (hheight.mul (hi.sub he)) ((hi.sub hdouble).add hx)
  | cosine center width =>
    obtain _ | ⟨hc, _ | ⟨hw, ⟨⟩⟩⟩ := hvs
    cases hs'
    have hhalf := Float.Alike.mul (.refl 0.5) hw
    simp only [Shape.degree]
    rw [hx.below_eq (hc.sub hhalf), hx.above_eq (hc.add hhalf)]
    refine .ite .rfl (.refl _) ((SameResult.divide (.refl _) hw).bind fun h => ?_)
    exact (SameResult.apply rfl ((h.mul (.refl pi)).mul (hx.sub hc))).bind fun h =>
      .ok ((hheight.mul (.refl _)).mul (.add (.refl _) h))
  | discrete points =>
    cases hs'
    have hpoints := pointsAlike_pairs hvs
    -- the ends of the list are the points at its first and its last place
    simp only [Shape.degree, List.head?_eq_getElem?, List.getLast?_eq_getElem?, ← hpoints.length_eq]
    rcases hpoints.getElem? 0 with ⟨hp, hp'⟩ | ⟨p, p', hp, hp', hpx, hpy⟩
    · rw [hp, hp']
      exact .error _
    rcases hpoints.getElem? (points.length - 1) with ⟨hq, hq'⟩ | ⟨q, q', hq, hq', hqx, hqy⟩
    · rw [hp, hp', hq, hq']
      exact .error _
    · rw [hp, hp', hq, hq']
      dsimp only
      rw [hx.atMost_eq hpx, hx.atLeast_eq hqx]
      exact .ite .rfl (.ok (hheight.mul hpy)) (.ite .rfl (.ok (hheight.mul hqy))
        ((hpoints.interpolate hx).bind fun h => .ok (hheight.mul h)))
  | gaussian mean deviation =>
    obtain _ | ⟨hm, _ | ⟨hd, ⟨⟩⟩⟩ := hvs
    cases hs'
    simp only [Shape.degree]
    rw [hd.near_eq (.refl _)]
    exact .ite .rfl (.ok (hheight.mul (collapsed_alike hx hm)))
      ((gaussCurve_alike hx hm hd).bind fun h => .ok (hheight.mul h))
  | gaussianProduct meanA deviationA meanB deviationB =>
    obtain _ | ⟨hma, _ | ⟨hda, _ | ⟨hmb, _ | ⟨hdb, ⟨⟩⟩⟩⟩⟩ := hvs
    cases hs'
    simp only [Shape.degree]
    rw [hx.below_eq hma, hda.near_eq (.refl _), hx.above_eq hmb, hdb.near_eq (.refl _)]
    -- the curve on the right is the same whichever the factor on the left is
    refine .ite .rfl (.refl _) (.ite .rfl (.bind (gaussCurve_alike hx hma hda) fun ha => ?_)
      (.bind (.refl _) fun ha => ?_))
    all_goals exact .ite .rfl (.refl _) (.ite .rfl
      (.bind (gaussCurve_alike hx hmb hdb) fun hb => .ok ((hheight.mul ha).mul hb))
      (.bind (.refl _) fun hb => .ok ((hheight.mul ha).mul hb)))
  | piShape bottomLeft topLeft topRight bottomRight =>
    obtain _ | ⟨hbl, _ | ⟨htl, _ | ⟨htr, _ | ⟨hbr, ⟨⟩⟩⟩⟩⟩ := hvs
    cases hs'
    exact (sCurve_alike hx hbl htl).bind fun hs => (zCurve_alike hx htr hbr).bind fun hz =>
      .ok ((hheight.mul hs).mul hz)
  | ramp start stop =>
    obtain _ | ⟨hs, _ | ⟨he, ⟨⟩⟩⟩ := hvs
    cases hs'
    simp only [Shape.degree]
    rw [hs.near_eq he, hs.below_eq he, hx.atMost_eq hs, hx.atLeast_eq he, hx.atLeast_eq hs, hx.atMost_eq he]
    refine .ite .rfl (.refl _) (.ite .rfl (.ite .rfl (.refl _) (.ite .rfl (.ok hfull) ?_))
      (.ite .rfl (.refl _) (.ite .rfl (.ok hfull) ?_)))
    · exact .divide (hheight.mul (hx.sub hs)) (he.sub hs)
    · exact .divide (hheight.mul (hs.sub hx)) (hs.sub he)
  | rectangle start stop =>
    obtain _ | ⟨hs, _ | ⟨he, ⟨⟩⟩⟩ := hvs
    cases hs'
    simp only [Shape.degree]
    rw [hx.atLeast_eq hs, hx.atMost_eq he]
    exact .ok (.ite .rfl hfull (.refl _))
  | sShape start stop =>
    obtain _ | ⟨hs, _ | ⟨he, ⟨⟩⟩⟩ := hvs
    cases hs'
    exact (sCurve_alike hx hs he).bind fun h => .ok (hheight.mul h)
  | sigmoid inflection slope =>
    obtain _ | ⟨hi, _ | ⟨hs, ⟨⟩⟩⟩ := hvs
    cases hs'
    exact (logistic_alike hx hi hs).bind fun h => .ok (hheight.mul h)
  | sigmoidDifference left rising falling right =>
    obtain _ | ⟨hl, _ | ⟨hr, _ | ⟨hf, _ | ⟨ht, ⟨⟩⟩⟩⟩⟩ := hvs
    cases hs'
    exact (logistic_alike hx hl hr).bind fun ha => (logistic_alike hx ht hf).bind fun hb =>
      .ok (hheight.mul (ha.sub hb).abs)
  | sigmoidProduct left rising falling right =>
    obtain _ | ⟨hl, _ | ⟨hr, _ | ⟨hf, _ | ⟨ht, ⟨⟩⟩⟩⟩⟩ := hvs
    cases hs'
    exact (logistic_alike hx hl hr).bind fun ha => (logistic_alike hx ht hf).bind fun hb =>
      .ok ((hheight.mul ha).mul hb)
  | spike center width =>
    obtain _ | ⟨hc, _ | ⟨hw, ⟨⟩⟩⟩ := hvs
    cases hs'
    simp only [Shape.degree]
    rw [hw.near_eq (.refl _)]
    refine .ite .rfl (.ok (hheight.mul (collapsed_alike hx hc))) ?_
    exact (SameResult.divide (.refl _) hw).bind fun h =>
      (SameResult.apply rfl (h.mul (hx.sub hc)).abs.neg).bind fun h => .ok (hheight.mul h)
  | trapezoid a b c d =>
    obtain _ | ⟨ha, _ | ⟨hb, _ | ⟨hc, _ | ⟨hd, ⟨⟩⟩⟩⟩⟩ := hvs
    cases hs'
    simp only [Shape.degree]
    rw [hx.below_eq ha, hx.above_eq hd, hx.below_eq hb, ha.beq_eq (.refl _), hx.atMost_eq hc, hx.below_eq hd,
      hd.beq_eq (.refl _)]
    refine .ite .rfl (.refl _) (.ite .rfl (.ite .rfl (.ok hfull) ?_) (.ite .rfl (.ok hfull)
      (.ite .rfl (.ite .rfl (.ok hfull) ?_) (.ite .rfl (.ok hfull) (.refl _)))))
    · exact (SameResult.divide (hx.sub ha) (hb.sub ha)).bind fun h => .ok (hheight.mul (.least (.refl _) h))
    · exact .divide (hheight.mul (hd.sub hx)) (hd.sub hc)
  | triangle a b c =>
    obtain _ | ⟨ha, _ | ⟨hb, _ | ⟨hc, ⟨⟩⟩⟩⟩ := hvs
    cases hs'
    simp only [Shape.degree]
    rw [hx.below_eq ha, hx.above_eq hc, hx.near_eq hb, hx.below_eq hb, ha.beq_eq (.refl _), hc.beq_eq (.refl _)]
    refine .ite .rfl (.refl _) (.ite .rfl (.ok hfull) (.ite .rfl (.ite .rfl (.ok hfull) ?_)
      (.ite .rfl (.ok hfull) ?_)))
    · exact .divide (hheight.mul (hx.sub ha)) (hb.sub ha)
    · exact .divide (hheight.mul (hc.sub hx)) (hc.sub hb)
  | zShape start stop =>
    obtain _ | ⟨hs, _ | ⟨he, ⟨⟩⟩⟩ := hvs
    cases hs'
    exact (zCurve_alike hx hs he).bind fun h => .ok (hheight.mul h)

theorem isBlank_eq (h : s.Alike s') : s.isBlank = s'.isBlank := by
  by_cases hkind : s.kind = .discrete
  · obtain ⟨vs, hs', hvs⟩ := h.exists_values
    cases s with
    | discrete points =>
      cases hs'
      have hpoints := pointsAlike_pairs hvs
      generalize pairs vs = points' at hpoints
      cases hpoints with
      | nil => rfl
      | cons _ _ => rfl
    | _ => cases hkind
  · rw [isBlank_of_kind hkind, isBlank_of_kind (h.1 ▸ hkind)]

theorem membership (h : s.Alike s') (hheight : Float.Alike height height') (hx : Float.Alike x x') (name : String) :
    SameResult (s.membership name height x) (s'.membership name height' x') := by
  unfold Shape.membership
  rw [hx.isNaN_eq, h.isBlank_eq]
  exact .ite .rfl (.refl _) (.ite .rfl (.error _) (h.degree hheight hx).liftM)

end Alike

end Shape

/-! ## §4 Degrees of terms -/

/-- The values that a formula has for names of its own. -/
def Body.extra : Body Float → List (String × Float)
  | .formula f => f.extra
  | _ => []

namespace Term

variable {t t' : Term Float}

theorem getLastD_alike {xs ys : List Float} (h : AllAlike xs ys) {x y : Float} (hlast : Float.Alike x y) :
    Float.Alike (xs.getLastD x) (ys.getLastD y) := by
  induction h generalizing x y with
  | nil => exact hlast
  | cons hfirst _ ih =>
    rw [List.getLastD_cons, List.getLastD_cons]
    exact ih hfirst

/-- Steps that keep numbers alike, over coefficients that are alike and the same inputs. -/
theorem foldl_zip_alike {f : Float → Float × Float → Float} {coefficients coefficients' : List Float}
    (h : AllAlike coefficients coefficients') (inputs : List Float)
    (hf : ∀ {sum sum' c c' : Float} (v : Float), Float.Alike sum sum' → Float.Alike c c' →
      Float.Alike (f sum (c, v)) (f sum' (c', v))) {sum sum' : Float} (hsum : Float.Alike sum sum') :
    Float.Alike ((coefficients.zip inputs).foldl f sum) ((coefficients'.zip inputs).foldl f sum') := by
  -- what is added up so far is alike on both sides
  induction h generalizing inputs sum sum' with
  | nil => exact hsum
  | cons hc _ ih =>
    cases inputs with
    | nil => exact hsum
    | cons v inputs => exact ih inputs (hf v hsum hc)

theorem combine_alike {coefficients coefficients' : List Float} (h : AllAlike coefficients coefficients')
    (inputs : List Float) : Float.Alike (combine coefficients inputs) (combine coefficients' inputs) := by
  unfold combine
  refine .ite (by rw [h.length_eq]) (.add (foldl_zip_alike h inputs ?_ (.refl 0.0)) (getLastD_alike h (.refl 0.0)))
    (foldl_zip_alike h inputs ?_ (.refl 0.0))
  all_goals
    intro sum sum' c c' v hsum hc
    exact hsum.add (hc.mul (.refl v))

/-- Terms whose bodies are alike have the same degrees up to the sign of zero, or the same errors. -/
theorem membership_alike (h : t.body.Alike t'.body) (hname : t.name = t'.name) (hextra : t.body.extra = t'.body.extra)
    (around : Option (Surroundings Float)) (x : Float) :
    SameResult (t.membership around x) (t'.membership around x) := by
  obtain ⟨id, name, body⟩ := t
  obtain ⟨id', name', body'⟩ := t'
  cases hname
  dsimp only at h hextra
  unfold membership
  cases h with
  | shape hs hheight => exact hs.membership hheight (.refl x) _
  | constant h => exact .ok h
  | linear h =>
    cases around with
    | none => exact .error _
    | some s => exact .ok (combine_alike h _)
  | formula =>
    cases hextra
    exact .refl _

end Term

end FuzzyInference
