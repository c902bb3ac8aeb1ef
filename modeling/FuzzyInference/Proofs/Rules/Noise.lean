import FuzzyInference.Proofs.Decimal.Parts
import FuzzyInference.Proofs.Rules.Coded

/-!
# Codes that are slightly off

A code is a whole number and a fraction, and numbers that are computed miss both by a little. The fraction is
compared with a tolerance, but only after the whole number has been cut off. So an error does no harm to a code with
a fraction, wherever it points, and none to a whole code that it makes larger. A whole code that gets smaller loses
a unit to its fraction, which is then almost one and codes no hedge: the row is refused.

The plan of this module:

* fractions that are nearly coded ones;
* whole parts and fractions of codes that are off;
* what such codes say;
* rows of such codes.

## Main statements

* `CodedRule.hedges?_congr`, `CodedRule.hedges?_eq_none`: hedges of fractions that are off
* `CodedRule.proposition_cases`: what a code says that is off
* `CodedRule.ofCodes_noisy`: the rows of such codes that are accepted, and the rules that they stand for
-/

namespace FuzzyInference

open Scalar Checked FuzzyInference.Float

namespace CodedRule

/-! ## §1 Fractions -/

/-- The fractions that code hedges, and zero, which codes none. -/
def codedFractions : List ℚ := [0, 1 / 100, 1 / 20, 1 / 5, 3 / 10, 2 / 5, 99 / 100]

theorem codedFractions_apart : ∀ f ∈ codedFractions, ∀ g ∈ codedFractions, f ≠ g → 1 / 100 ≤ |f - g| := by
  decide +kernel

/-- Fractions are coded by zero, or are far from zero and from one. -/
theorem codedFractions_bounds : ∀ f ∈ codedFractions, f = 0 ∨ 1 / 100 ≤ f ∧ f ≤ 99 / 100 := by
  decide +kernel

/-- The number is the coded fraction, up to rounding. -/
def Rounds (x : Float) (f : ℚ) : Prop := Scalar.isFinite x = true ∧ |value x - f| ≤ 1 / 10 ^ 15

theorem rounds_zero : Rounds 0.0 0 := ⟨by decide, by rw [value_zero]; norm_num⟩

theorem rounds_of_parts {x : Float} {m : ℕ} {e : ℤ} {f : ℚ} (h : Decimal.Binary.ofFloat x = .finite false m e)
    (hnear : |(m : ℚ) * 2 ^ e - f| ≤ 1 / 10 ^ 15) : Rounds x f :=
  ⟨isFinite_of_ofFloat h, by rwa [value_of_parts h]⟩

/-- The numbers of the table are coded fractions. -/
theorem exists_rounds : ∀ p ∈ fractionHedges, ∃ f ∈ codedFractions, Rounds p.1 f := by
  simp only [fractionHedges, List.forall_mem_cons]
  refine ⟨⟨1 / 100, by decide +kernel, rounds_of_parts (m := 5764607523034235) (e := -59) (by decide) ?_⟩,
    ⟨1 / 20, by decide +kernel, rounds_of_parts (m := 7205759403792794) (e := -57) (by decide) ?_⟩,
    ⟨1 / 5, by decide +kernel, rounds_of_parts (m := 7205759403792794) (e := -55) (by decide) ?_⟩,
    ⟨3 / 10, by decide +kernel, rounds_of_parts (m := 5404319552844595) (e := -54) (by decide) ?_⟩,
    ⟨2 / 5, by decide +kernel, rounds_of_parts (m := 7205759403792794) (e := -54) (by decide) ?_⟩,
    ⟨99 / 100, by decide +kernel, rounds_of_parts (m := 8917127262193582) (e := -53) (by decide) ?_⟩,
    fun _ hp => absurd hp List.not_mem_nil⟩
  all_goals
    rw [abs_le]
    constructor <;> norm_num

theorem fractionTolerance_bounds : Scalar.isFinite fractionTolerance = true ∧ 999 / 10 ^ 9 < value fractionTolerance ∧
    value fractionTolerance < 1001 / 10 ^ 9 := by
  have hparts : Decimal.Binary.ofFloat fractionTolerance = .finite false 4722366482869645 (-72) := by decide
  refine ⟨isFinite_of_ofFloat hparts, ?_⟩
  rw [value_of_parts hparts]
  norm_num

/-- The number differs from the coded fraction by clearly less than the tolerance. -/
structure IsNearly (x : Float) (f : ℚ) : Prop where
  isFinite : Scalar.isFinite x = true
  fraction : f ∈ codedFractions
  near : |value x - f| ≤ 9 / 10 ^ 7

section Hedges

variable {x y c : Float} {f g : ℚ}

/-- What is nearly a coded fraction is near to this one only. -/
theorem IsNearly.nearWithin_eq (h : IsNearly x f) (hc : Rounds c g) (hg : g ∈ codedFractions) :
    nearWithin fractionTolerance x c = decide (f = g) := by
  obtain ⟨hfinite, hlow, hhigh⟩ := fractionTolerance_bounds
  by_cases hsame : f = g
  · have hclose : |value x - value c| ≤ 9 / 10 ^ 7 + 1 / 10 ^ 15 := by
      have htriangle := abs_sub_le (value x) f (value c)
      rw [abs_sub_comm f] at htriangle
      linarith [h.near, hsame ▸ hc.2]
    rw [decide_eq_true hsame]
    exact nearWithin_of_lt hfinite (by linarith) h.isFinite hc.1 (by linarith)
  · have hapart : 1 / 1000 ≤ |value x - value c| := by
      have htriangle := abs_sub_le f (value x) g
      have htriangle' := abs_sub_le (value x) (value c) g
      rw [abs_sub_comm f (value x)] at htriangle
      linarith [h.near, hc.2, codedFractions_apart f h.fraction g hg hsame]
    rw [decide_eq_false hsame]
    exact nearWithin_eq_false hfinite (by linarith) h.isFinite hc.1 (by linarith)

/-- Fractions that are nearly the same coded one have the same hedges. -/
theorem hedges?_congr (hx : IsNearly x f) (hy : IsNearly y f) : hedges? x = hedges? y := by
  have hzero : nearWithin fractionTolerance x 0.0 = nearWithin fractionTolerance y 0.0 := by
    rw [hx.nearWithin_eq rounds_zero (by decide +kernel), hy.nearWithin_eq rounds_zero (by decide +kernel)]
  have htable : (fractionHedges.find? fun p => nearWithin fractionTolerance x p.1) =
      fractionHedges.find? fun p => nearWithin fractionTolerance y p.1 := by
    refine List.find?_congr fun p hp => ?_
    obtain ⟨g, hg, hrounds⟩ := exists_rounds p hp
    rw [hx.nearWithin_eq hrounds hg, hy.nearWithin_eq hrounds hg]
  rw [hedges?, hedges?, hzero, htable]

/-- A fraction that is almost one codes no hedges. -/
theorem hedges?_eq_none (hx : Scalar.isFinite x = true) (h : 999 / 1000 < value x) : hedges? x = none := by
  obtain ⟨hfinite, hlow, hhigh⟩ := fractionTolerance_bounds
  have hfar : ∀ {c g}, Rounds c g → g ≤ 99 / 100 → nearWithin fractionTolerance x c = false := by
    intro c g hc hg
    have hclose := (abs_le.1 hc.2).2
    have hapart : 8 / 1000 ≤ |value x - value c| := le_trans (by linarith) (le_abs_self _)
    exact nearWithin_eq_false hfinite (by linarith) hx hc.1 (by linarith)
  rw [hedges?, hfar rounds_zero (by norm_num), if_neg Bool.false_ne_true, Option.map_eq_none_iff, List.find?_eq_none]
  intro p hp
  obtain ⟨g, hg, hrounds⟩ := exists_rounds p hp
  have hbound : g ≤ 99 / 100 := by
    rcases codedFractions_bounds g hg with hzero | hbounds
    · rw [hzero]
      norm_num
    · exact hbounds.2
  rw [hfar hrounds hbound]
  exact Bool.false_ne_true

end Hedges

/-! ## §2 Codes -/

/-- The code is the sum of a whole number and a coded fraction, or the opposite of it: exactly where the fraction
is zero, and otherwise up to rounding, which is taken generously. -/
structure Encodes (code : Float) (k : ℕ) (f : ℚ) : Prop where
  isFinite : Scalar.isFinite code = true
  fraction : f ∈ codedFractions
  pos : 0 < k + f
  near : |(|value code|) - (k + f)| ≤ 5 / 10 ^ 7
  whole : f = 0 → |value code| = k

/-- The second code is the first one, or differs from it by a small error. -/
inductive IsNoisy (code : Float) : Float → Prop
  | same : IsNoisy code code
  | shifted {k : ℕ} {f : ℚ} {code' : Float} (h : Encodes code k f) (hfinite : Scalar.isFinite code' = true)
      (herror : |value code' - value code| < 4 / 10 ^ 7) : IsNoisy code code'

/-- The first code is a whole number, and the second one is nearer to zero. -/
def FallsShort (code code' : Float) : Prop := (∃ k : ℕ, |value code| = k) ∧ |value code'| < |value code|

theorem not_fallsShort_self (code : Float) : ¬FallsShort code code := fun h => lt_irrefl _ h.2

/-- What a code is cut into: its whole part, its fraction, and its sign. -/
structure IsCut (code : Float) (position : ℕ) (fraction : Float) (negative : Prop) : Prop where
  position : wholePart (Scalar.abs code) = .ok position
  fraction : Scalar.remainder (Scalar.abs code) 1.0 = .ok fraction
  negative : code < 0.0 ↔ negative

section Cuts

variable {code code' : Float} {k : ℕ} {f : ℚ}

/-- Finite codes are cut exactly. -/
theorem exists_isCut (h : Scalar.isFinite code = true) :
    ∃ fraction, IsCut code ⌊|value code|⌋₊ fraction (value code < 0) ∧ Scalar.isFinite fraction = true ∧
      value fraction = Int.fract |value code| := by
  obtain ⟨fraction, hfraction, hfinite, hvalue⟩ := remainder_abs_one h
  have hfloor : Decimal.floor? (Scalar.abs code) = some (⌊|value code|⌋₊ : ℤ) := floor?_abs h
  refine ⟨fraction, ⟨?_, hfraction, ?_⟩, hfinite, hvalue⟩
  · rw [wholePart, hfloor]
    rfl
  · rw [lt_iff_value_lt h (by decide), value_zero]

/-- A magnitude between two whole numbers. -/
theorem floor_fract {q : ℚ} (hlow : k ≤ q) (hhigh : q < k + 1) : ⌊q⌋₊ = k ∧ Int.fract q = q - k := by
  refine ⟨(Nat.floor_eq_iff (k.cast_nonneg.trans hlow)).2 ⟨hlow, hhigh⟩, Int.fract_eq_iff.2 ⟨?_, ?_, k, ?_⟩⟩
  · linarith
  · linarith
  · rw [sub_sub_cancel]
    rfl

/-- The error is much smaller than the code. -/
theorem Encodes.bounds (h : Encodes code k f) : 9 / 1000 ≤ |value code| := by
  have hnear := (abs_le.1 h.near).1
  rcases codedFractions_bounds f h.fraction with hzero | ⟨hlow, -⟩
  · have hpos := h.pos
    rw [hzero, add_zero] at hpos
    have hone : (1 : ℚ) ≤ k := Nat.one_le_cast.2 (Nat.cast_pos.1 hpos)
    rw [h.whole hzero]
    linarith
  · have hnonneg : (0 : ℚ) ≤ k := k.cast_nonneg
    linarith

theorem Encodes.neg_iff (h : Encodes code k f) (herror : |value code' - value code| < 4 / 10 ^ 7) :
    value code' < 0 ↔ value code < 0 := by
  have hbounds := h.bounds
  obtain ⟨hlow, hhigh⟩ := abs_lt.1 herror
  rcases le_or_gt 0 (value code) with hnonneg | hneg
  · rw [abs_of_nonneg hnonneg] at hbounds
    exact ⟨fun hlt => by linarith, fun hlt => absurd hlt hnonneg.not_gt⟩
  · rw [abs_of_neg hneg] at hbounds
    exact ⟨fun _ => hneg, fun _ => by linarith⟩

/-- Neither a code nor what it is with an error is left out. -/
theorem Encodes.isOmitted_eq_false (h : Encodes code k f) (hfinite : Scalar.isFinite code' = true)
    (herror : |value code' - value code| < 4 / 10 ^ 7) : isOmitted code' = false := by
  have hbounds := h.bounds
  obtain ⟨hlow, hhigh⟩ := value_tolerance_bounds
  have htriangle := abs_sub_abs_le_abs_sub (value code) (value code')
  rw [abs_sub_comm] at htriangle
  refine nearWithin_eq_false (by decide) (by linarith) hfinite (by decide) ?_
  rw [value_zero, sub_zero]
  linarith

/-- A code that is off and does not fall short is cut at the same whole number, and its fraction is nearly the same.
One that falls short loses a unit to its fraction. -/
theorem Encodes.floor_fract_cases (h : Encodes code k f) (herror : |value code' - value code| < 4 / 10 ^ 7) :
    ⌊|value code|⌋₊ = k ∧ |Int.fract |value code| - f| ≤ 9 / 10 ^ 7 ∧
    (¬FallsShort code code' ∧ ⌊|value code'|⌋₊ = k ∧ |Int.fract |value code'| - f| ≤ 9 / 10 ^ 7 ∨
      FallsShort code code' ∧ ⌊|value code'|⌋₊ + 1 = k ∧ 999 / 1000 < Int.fract |value code'|) := by
  obtain ⟨herrorLow, herrorHigh⟩ := abs_lt.1 ((abs_abs_sub_abs_le _ _).trans_lt herror)
  obtain ⟨hnearLow, hnearHigh⟩ := abs_le.1 h.near
  rcases codedFractions_bounds f h.fraction with rfl | ⟨hlow, hhigh⟩
  · have hwhole := h.whole rfl
    obtain ⟨hfloor, hfract⟩ := floor_fract (k := k) hwhole.ge (by linarith)
    refine ⟨hfloor, by rw [hfract, hwhole, sub_self, sub_zero, abs_zero]; norm_num, ?_⟩
    rcases le_or_gt |value code| |value code'| with hle | hlt
    · obtain ⟨hfloor', hfract'⟩ := floor_fract (k := k) (hwhole ▸ hle) (by linarith)
      refine .inl ⟨fun hshort => hshort.2.not_ge hle, hfloor', ?_⟩
      rw [hfract', sub_zero, abs_of_nonneg (by linarith)]
      linarith
    · -- the whole number below is the one before
      obtain ⟨j, rfl⟩ : ∃ j, k = j + 1 := by
        have hpos : (0 : ℚ) < k := add_zero (k : ℚ) ▸ h.pos
        exact Nat.exists_eq_add_one.2 (Nat.cast_pos.1 hpos)
      push_cast at hwhole
      obtain ⟨hfloor', hfract'⟩ := floor_fract (k := j) (q := |value code'|) (by linarith) (by linarith)
      refine .inr ⟨⟨⟨j + 1, by rw [hwhole, Nat.cast_add_one]⟩, hlt⟩, by rw [hfloor'], ?_⟩
      rw [hfract']
      linarith
  · obtain ⟨hfloor, hfract⟩ := floor_fract (k := k) (q := |value code|) (by linarith) (by linarith)
    obtain ⟨hfloor', hfract'⟩ := floor_fract (k := k) (q := |value code'|) (by linarith) (by linarith)
    refine ⟨hfloor, ?_, .inl ⟨?_, hfloor', ?_⟩⟩
    · rw [hfract, abs_le]
      constructor <;> linarith
    · -- the code is between two whole numbers
      rintro ⟨⟨n, hn⟩, -⟩
      rw [hn, Nat.floor_natCast] at hfloor
      rw [hn, Int.fract_natCast, hfloor] at hfract
      rw [hn, hfloor] at hnearLow
      linarith
    · rw [hfract', abs_le]
      constructor <;> linarith

end Cuts

/-! ## §3 Propositions -/

section Propositions

variable {e : VocabularyEntry} {isConclusion : Bool} {code code' fraction fraction' : Float} {position : ℕ}
  {negative : Prop} {p : Proposition}

/-- A code that is cut in the same way, but for fractions with the same hedges, says the same. -/
theorem proposition_congr (hcut : IsCut code position fraction negative)
    (hcut' : IsCut code' position fraction' negative) (hhedges : hedges? fraction = hedges? fraction')
    (h : proposition e isConclusion code = .ok p) : proposition e isConclusion code' = .ok p := by
  have hsign : (if code' < 0.0 then [Hedge.not] else []) = if code < 0.0 then [.not] else [] :=
    if_congr (hcut'.negative.trans hcut.negative.symm) rfl rfl
  unfold proposition at h ⊢
  simp only [hcut.position, hcut.fraction, hcut'.position, hcut'.fraction, liftM_ok, ok_bind, hsign,
    ← hhedges] at h ⊢
  split at h
  · cases h
  · rename_i hlength
    rw [if_neg hlength]
    cases hcoded : hedges? fraction with
    | none =>
      simp only [hcoded] at h
      cases h
    | some hedges =>
      simp only [hcoded, pure_eq_ok, ok_bind] at h ⊢
      split at h
      · rename_i hany
        rw [if_pos hany]
        exact h
      · rename_i hany
        rw [if_neg hany]
        cases hterm : (if position = 0 then none else e.terms[position - 1]?) with
        | none =>
          simp only [hterm] at h
          cases h
        | some t => simpa only [hterm] using h

/-- A fraction that codes no hedges is refused. -/
theorem proposition_of_hedges?_none (hcut : IsCut code position fraction negative) (hlength : position ≤ e.terms.length)
    (hhedges : hedges? fraction = none) : proposition e isConclusion code =
      .error (.configuration (.uncodedHedge (Scalar.text 4 fraction) e.ref.name)) := by
  unfold proposition
  simp only [hcut.position, hcut.fraction, liftM_ok, ok_bind, if_neg hlength.not_gt, hhedges]
  rfl

/-- Codes beyond the terms are refused. -/
theorem position_le_of_proposition (hcut : IsCut code position fraction negative)
    (h : proposition e isConclusion code = .ok p) : position ≤ e.terms.length := by
  unfold proposition at h
  simp only [hcut.position, hcut.fraction, liftM_ok, ok_bind] at h
  split at h
  · cases h
  · rename_i hlength
    exact not_lt.1 hlength

/-- The refusal of a fraction that is almost one. -/
def IsRefused (e : VocabularyEntry) (err : Error) : Prop :=
  ∃ fraction, 999 / 1000 < value fraction ∧ value fraction < 1 ∧
    err = .configuration (.uncodedHedge (Scalar.text 4 fraction) e.ref.name)

/-- A code that is off says what it did, unless it falls short of a whole number and is refused. -/
theorem proposition_cases (hnoisy : IsNoisy code code') (h : proposition e isConclusion code = .ok p) :
    ¬FallsShort code code' ∧ proposition e isConclusion code' = .ok p ∨
      FallsShort code code' ∧ ∃ err, IsRefused e err ∧ proposition e isConclusion code' = .error err := by
  cases hnoisy with
  | same => exact .inl ⟨not_fallsShort_self code, h⟩
  | @shifted k f _ hencodes hfinite herror =>
    obtain ⟨fraction, hcut, hfraction, hvalue⟩ := exists_isCut hencodes.isFinite
    obtain ⟨fraction', hcut', hfraction', hvalue'⟩ := exists_isCut hfinite
    obtain ⟨hfloor, hfract, hcases⟩ := hencodes.floor_fract_cases herror
    rw [hfloor] at hcut
    rcases hcases with ⟨hnot, hfloor', hfract'⟩ | ⟨hshort, hfloor', hfract'⟩
    · left
      refine ⟨hnot, proposition_congr hcut ⟨?_, hcut'.fraction, ?_⟩ (hedges?_congr (f := f) ?_ ?_) h⟩
      · rw [← hfloor']
        exact hcut'.position
      · exact hcut'.negative.trans (hencodes.neg_iff herror)
      · exact ⟨hfraction, hencodes.fraction, hvalue ▸ hfract⟩
      · exact ⟨hfraction', hencodes.fraction, hvalue' ▸ hfract'⟩
    · right
      have hlength := position_le_of_proposition hcut h
      rw [← hvalue'] at hfract'
      exact ⟨hshort, _, ⟨fraction', hfract', hvalue' ▸ Int.fract_lt_one _, rfl⟩,
        proposition_of_hedges?_none hcut' (by omega) (hedges?_eq_none hfraction' hfract')⟩

theorem isOmitted_of_isNoisy (h : IsNoisy code code') : isOmitted code' = isOmitted code := by
  cases h with
  | same => rfl
  | shifted h hfinite herror =>
    have hself : |value code - value code| < 4 / 10 ^ 7 := by
      rw [sub_self, abs_zero]
      norm_num
    rw [h.isOmitted_eq_false hfinite herror, h.isOmitted_eq_false h.isFinite hself]

/-- A code that is left out does not fall short. -/
theorem not_fallsShort_of_isOmitted (h : IsNoisy code code') (homitted : isOmitted code = true) :
    ¬FallsShort code code' := by
  cases h with
  | same => exact not_fallsShort_self code
  | shifted h hfinite herror =>
    have hkept := h.isOmitted_eq_false hfinite herror
    rw [isOmitted_of_isNoisy (.shifted h hfinite herror), homitted] at hkept
    cases hkept

end Propositions

/-! ## §4 Rows -/

/-- Some code of the row falls short. -/
def SomeFallsShort (codes codes' : List Float) : Prop := ∃ x ∈ codes.zip codes', FallsShort x.1 x.2

theorem someFallsShort_cons {c c' : Float} {cs cs' : List Float} :
    SomeFallsShort (c :: cs) (c' :: cs') ↔ FallsShort c c' ∨ SomeFallsShort cs cs' := by
  simp [SomeFallsShort, List.zip_cons_cons]

theorem propositions_cons (isConclusion : Bool) (e : VocabularyEntry) (es : List VocabularyEntry) (c : Float)
    (cs : List Float) : propositions isConclusion (e :: es) (c :: cs) =
      if isOmitted c then propositions isConclusion es cs
      else do
        let p ← proposition e isConclusion c
        let ps ← propositions isConclusion es cs
        return p :: ps := by
  unfold propositions
  rw [List.zip_cons_cons, List.filter_cons]
  cases isOmitted c with
  | true => rfl
  | false => exact List.mapM_cons

/-- Codes that are off say what they did, unless one of them falls short. -/
theorem propositions_cases {isConclusion : Bool} {entries : List VocabularyEntry} {codes codes' : List Float}
    {ps : List Proposition} (hnoisy : List.Forall₂ IsNoisy codes codes') (hlength : codes.length = entries.length)
    (h : propositions isConclusion entries codes = .ok ps) :
    ¬SomeFallsShort codes codes' ∧ propositions isConclusion entries codes' = .ok ps ∨
      SomeFallsShort codes codes' ∧ ∃ e ∈ entries, ∃ err, IsRefused e err ∧
        propositions isConclusion entries codes' = .error err := by
  -- by induction on the codes: those that are left out stay out, and the first one that falls short decides
  induction hnoisy generalizing entries ps with
  | nil =>
    refine .inl ⟨?_, h⟩
    rintro ⟨x, hx, -⟩
    cases hx
  | @cons c c' cs cs' hc hcs ih =>
    obtain ⟨e, es, rfl⟩ := List.exists_cons_of_length_eq_add_one hlength.symm
    rw [propositions_cons] at h
    rw [propositions_cons, isOmitted_of_isNoisy hc, someFallsShort_cons]
    have htail := fun {qs} => @ih es qs (Nat.succ.inj hlength)
    cases homitted : isOmitted c with
    | true =>
      rw [homitted, if_pos rfl] at h
      have hnot := not_fallsShort_of_isOmitted hc homitted
      rw [if_pos rfl]
      rcases htail h with ⟨hrest, heq⟩ | ⟨hrest, e', he', hrefused⟩
      · exact .inl ⟨not_or.2 ⟨hnot, hrest⟩, heq⟩
      · exact .inr ⟨.inr hrest, e', List.mem_cons_of_mem _ he', hrefused⟩
    | false =>
      rw [homitted, if_neg Bool.false_ne_true] at h
      rw [if_neg Bool.false_ne_true]
      obtain ⟨p, hp, h⟩ := bind_eq_ok_iff.1 h
      obtain ⟨qs, hqs, h⟩ := bind_eq_ok_iff.1 h
      rcases proposition_cases hc hp with ⟨hnot, heq⟩ | ⟨hshort, err, hrefused, heq⟩
      · rw [heq, ok_bind]
        rcases htail hqs with ⟨hrest, heq'⟩ | ⟨hrest, e', he', err, hrefused, heq'⟩
        · exact .inl ⟨not_or.2 ⟨hnot, hrest⟩, by rw [heq', ok_bind]; exact h⟩
        · exact .inr ⟨.inr hrest, e', List.mem_cons_of_mem _ he', err, hrefused, by rw [heq', error_bind]⟩
      · exact .inr ⟨.inl hshort, e, List.mem_cons_self, err, hrefused, by rw [heq, error_bind]⟩

theorem someFallsShort_append {a a' b b' : List Float} (h : a.length = a'.length) :
    SomeFallsShort (a ++ b) (a' ++ b') ↔ SomeFallsShort a a' ∨ SomeFallsShort b b' := by
  unfold SomeFallsShort
  rw [List.zip_append h]
  simp only [List.mem_append, or_and_right, exists_or]

section Noise

variable {v : Vocabulary} {row row' : List Value} {codes codes' : List Float} {weight last : Float} {coded : CodedRule}

theorem length_of_ofCodes (h : ofCodes v row = .ok coded)
    (hrow : row.mapM Value.toScalar = .ok (codes ++ [weight, last])) :
    codes.length = v.inputs.length + v.outputs.length := by
  obtain ⟨inputs, outputs, ⟨⟨_, hscalars, -⟩, hinputs, houtputs⟩, -⟩ := exists_row h
  have hsame := congrArg List.length (Except.ok.inj (hrow.symm.trans hscalars))
  simp only [List.length_append, List.length_cons, List.length_nil] at hsame
  omega

/-- A row of codes that are off stands for the same rule, unless one of them falls short. -/
theorem ofCodes_cases (h : ofCodes v row = .ok coded)
    (hrow : row.mapM Value.toScalar = .ok (codes ++ [weight, last]))
    (hrow' : row'.mapM Value.toScalar = .ok (codes' ++ [weight, last])) (hnoisy : List.Forall₂ IsNoisy codes codes') :
    ¬SomeFallsShort codes codes' ∧ ofCodes v row' = .ok coded ∨
      SomeFallsShort codes codes' ∧
        ∃ e ∈ v.inputs ++ v.outputs, ∃ err, IsRefused e err ∧ ofCodes v row' = .error err := by
  have hlength := length_of_ofCodes h hrow
  have hlength' := hnoisy.length_eq
  have hinputs := List.forall₂_take v.inputs.length hnoisy
  have houtputs := List.forall₂_drop v.inputs.length hnoisy
  have hsplit : SomeFallsShort codes codes' ↔
      SomeFallsShort (codes.take v.inputs.length) (codes'.take v.inputs.length) ∨
        SomeFallsShort (codes.drop v.inputs.length) (codes'.drop v.inputs.length) := by
    rw [← someFallsShort_append hinputs.length_eq, List.take_append_drop, List.take_append_drop]
  rw [ofCodes_eq hrow hlength] at h
  rw [ofCodes_eq hrow' (hlength'.symm.trans hlength), hsplit]
  -- the number of the connective is the same, and the inputs are looked at before the outputs
  obtain ⟨n, hn, h⟩ := bind_eq_ok_iff.1 h
  obtain ⟨connective, hconnective, h⟩ := bind_eq_ok_iff.1 h
  obtain ⟨conditions, hconditions, h⟩ := bind_eq_ok_iff.1 h
  obtain ⟨conclusions, hconclusions, h⟩ := bind_eq_ok_iff.1 h
  rw [hn, ok_bind, hconnective, ok_bind]
  rcases propositions_cases hinputs (by rw [List.length_take]; omega) hconditions with
    ⟨hnot, heq⟩ | ⟨hshort, e, he, err, hrefused, heq⟩
  · rw [heq, ok_bind]
    rcases propositions_cases houtputs (by rw [List.length_drop]; omega) hconclusions with
      ⟨hnot', heq'⟩ | ⟨hshort, e, he, err, hrefused, heq'⟩
    · left
      refine ⟨not_or.2 ⟨hnot, hnot'⟩, ?_⟩
      rw [heq', ok_bind]
      split at h
      · cases h
      · rename_i hempty
        rw [if_neg hempty]
        exact h
    · exact .inr ⟨.inr hshort, e, List.mem_append_right _ he, err, hrefused, by rw [heq', error_bind]⟩
  · exact .inr ⟨.inl hshort, e, List.mem_append_left _ he, err, hrefused, by rw [heq, error_bind]⟩

/-- A row that is accepted, and whose codes are sums of whole numbers and coded fractions, may be off by small errors.
It is accepted then, and stands for the same rule, as long as no whole number falls short. A row with one that falls
short is refused, for a fraction that is almost one. -/
theorem ofCodes_noisy (h : ofCodes v row = .ok coded)
    (hrow : row.mapM Value.toScalar = .ok (codes ++ [weight, last]))
    (hrow' : row'.mapM Value.toScalar = .ok (codes' ++ [weight, last])) (hnoisy : List.Forall₂ IsNoisy codes codes') :
    ((∃ coded', ofCodes v row' = .ok coded' ∧ coded'.text = coded.text) ↔ ¬SomeFallsShort codes codes') ∧
    (¬SomeFallsShort codes codes' → ofCodes v row' = .ok coded) ∧
    (SomeFallsShort codes codes' →
      ∃ e ∈ v.inputs ++ v.outputs, ∃ err, IsRefused e err ∧ ofCodes v row' = .error err) := by
  rcases ofCodes_cases h hrow hrow' hnoisy with ⟨hnot, heq⟩ | ⟨hshort, e, he, err, hrefused, heq⟩
  · exact ⟨iff_of_true ⟨coded, heq, rfl⟩ hnot, fun _ => heq, fun hshort => absurd hshort hnot⟩
  · refine ⟨iff_of_false ?_ (not_not.2 hshort), fun hnot => absurd hshort hnot, fun _ => ⟨e, he, err, hrefused, heq⟩⟩
    rintro ⟨coded', heq', -⟩
    cases heq.symm.trans heq'

end Noise

/-- A code and what it is with an error, by their parts. -/
theorem isNoisy_of_parts {code code' : Float} {negative : Bool} {m m' k : ℕ} {e e' : ℤ} {f : ℚ}
    (hcode : Decimal.Binary.ofFloat code = .finite negative m e)
    (hcode' : Decimal.Binary.ofFloat code' = .finite negative m' e') (hf : f ∈ codedFractions) (hpos : 0 < k + f)
    (hnear : |(m : ℚ) * 2 ^ e - (k + f)| ≤ 5 / 10 ^ 7) (hwhole : f = 0 → (m : ℚ) * 2 ^ e = k)
    (herror : |(m' : ℚ) * 2 ^ e' - m * 2 ^ e| < 4 / 10 ^ 7) : IsNoisy code code' := by
  have habs : |value code| = m * 2 ^ e := by rw [value, hcode, Decimal.Binary.abs_value]
  refine .shifted ⟨isFinite_of_ofFloat hcode, hf, hpos, habs ▸ hnear, fun hzero => habs ▸ hwhole hzero⟩
    (isFinite_of_ofFloat hcode') ?_
  rw [value, value, hcode, hcode', Decimal.Binary.value, Decimal.Binary.value]
  cases negative with
  | false => exact herror
  | true =>
    rw [if_pos rfl, if_pos rfl, neg_sub_neg, abs_sub_comm]
    exact herror

end CodedRule

namespace Engine

open CodedRule

/-- The row of the lamps, with codes that are off by the same small error. The whole number gets larger. -/
def lampRowAbove : List Value := [.float (-1.20000005), .float 0.98999995, .float 2.00000005, .float 0.5, .int 2]

/-- The whole number gets smaller. -/
def lampRowBelow : List Value := [.float (-1.20000005), .float 0.98999995, .float 1.99999995, .float 0.5, .int 2]

/-- The parts of the codes in these rows. -/
theorem parts_lampRow :
    Decimal.Binary.ofFloat (-1.2) = .finite true 5404319552844595 (-52) ∧
    Decimal.Binary.ofFloat (-1.20000005) = .finite true 5404319778024577 (-52) ∧
    Decimal.Binary.ofFloat 0.99 = .finite false 8917127262193582 (-53) ∧
    Decimal.Binary.ofFloat 0.98999995 = .finite false 8917126811833619 (-53) ∧
    Decimal.Binary.ofFloat 2.0 = .finite false 4503599627370496 (-51) ∧
    Decimal.Binary.ofFloat 2.00000005 = .finite false 4503599739960487 (-51) ∧
    Decimal.Binary.ofFloat 1.99999995 = .finite false 9007199029561011 (-52) := by
  decide

theorem noisy_lampRow : List.Forall₂ IsNoisy [-1.2, 0.99, 2.0] [-1.20000005, 0.98999995, 2.00000005] ∧
    List.Forall₂ IsNoisy [-1.2, 0.99, 2.0] [-1.20000005, 0.98999995, 1.99999995] := by
  obtain ⟨hvery, hvery', hany, hany', hterm, habove, hbelow⟩ := parts_lampRow
  have hveryNoisy : IsNoisy (-1.2) (-1.20000005) := by
    refine isNoisy_of_parts hvery hvery' (k := 1) (f := 1 / 5) (by decide +kernel) (by norm_num) ?_ (by norm_num) ?_
    · norm_num [abs_le]
    · norm_num [abs_lt]
  have hanyNoisy : IsNoisy 0.99 0.98999995 := by
    refine isNoisy_of_parts hany hany' (k := 0) (f := 99 / 100) (by decide +kernel) (by norm_num) ?_ (by norm_num) ?_
    · norm_num [abs_le]
    · norm_num [abs_lt]
  have haboveNoisy : IsNoisy 2.0 2.00000005 := by
    refine isNoisy_of_parts hterm habove (k := 2) (f := 0) (by decide +kernel) (by norm_num) ?_ (by norm_num) ?_
    · norm_num
    · norm_num [abs_lt]
  have hbelowNoisy : IsNoisy 2.0 1.99999995 := by
    refine isNoisy_of_parts hterm hbelow (k := 2) (f := 0) (by decide +kernel) (by norm_num) ?_ (by norm_num) ?_
    · norm_num
    · norm_num [abs_lt]
  exact ⟨.cons hveryNoisy (.cons hanyNoisy (.cons haboveNoisy .nil)),
    .cons hveryNoisy (.cons hanyNoisy (.cons hbelowNoisy .nil))⟩

theorem someFallsShort_lampRow : ¬SomeFallsShort [-1.2, 0.99, 2.0] [-1.20000005, 0.98999995, 2.00000005] ∧
    SomeFallsShort [-1.2, 0.99, 2.0] [-1.20000005, 0.98999995, 1.99999995] := by
  obtain ⟨hvery, hvery', hany, -, hterm, habove, hbelow⟩ := parts_lampRow
  simp only [someFallsShort_cons, not_or, FallsShort]
  refine ⟨⟨?_, ?_, ?_, ?_⟩, .inr (.inr (.inl ⟨⟨2, ?_⟩, ?_⟩))⟩
  · rintro ⟨-, hlt⟩
    rw [value, value, hvery, hvery', Decimal.Binary.abs_value, Decimal.Binary.abs_value] at hlt
    norm_num at hlt
  · -- no whole number is between zero and one
    rintro ⟨⟨k, hk⟩, -⟩
    rw [value, hany, Decimal.Binary.abs_value] at hk
    have hpos : 0 < k := Nat.cast_pos.1 (hk ▸ by norm_num : (0 : ℚ) < k)
    exact hpos.ne' (Nat.cast_lt_one.1 (hk ▸ by norm_num : (k : ℚ) < 1))
  · rintro ⟨-, hlt⟩
    rw [value, value, hterm, habove, Decimal.Binary.abs_value, Decimal.Binary.abs_value] at hlt
    norm_num at hlt
  · rintro ⟨x, hx, -⟩
    cases hx
  · rw [value, hterm, Decimal.Binary.abs_value]
    norm_num
  · rw [value, value, hterm, hbelow, Decimal.Binary.abs_value, Decimal.Binary.abs_value]
    norm_num

theorem ofCodes_noisy_lamps :
    ofCodes lamps.inventory lampRow = .ok lampRule ∧
      lampRow.mapM Value.toScalar = .ok ([-1.2, 0.99, 2.0] ++ [0.5, 2.0]) ∧
      List.Forall₂ IsNoisy [-1.2, 0.99, 2.0] [-1.20000005, 0.98999995, 2.00000005] ∧
      ofCodes lamps.inventory lampRowAbove = .ok lampRule ∧
      List.Forall₂ IsNoisy [-1.2, 0.99, 2.0] [-1.20000005, 0.98999995, 1.99999995] ∧
      SomeFallsShort [-1.2, 0.99, 2.0] [-1.20000005, 0.98999995, 1.99999995] ∧
      ∃ e ∈ lamps.inventory.inputs ++ lamps.inventory.outputs, ∃ err, IsRefused e err ∧
        ofCodes lamps.inventory lampRowBelow = .error err := by
  have hcoded : ofCodes lamps.inventory lampRow = .ok lampRule := eq_ok_of_toOption (by decide +kernel)
  have hrow : lampRow.mapM Value.toScalar = .ok ([-1.2, 0.99, 2.0] ++ [0.5, 2.0]) :=
    eq_ok_of_toOption (by decide +kernel)
  have hrowAbove : lampRowAbove.mapM Value.toScalar = .ok ([-1.20000005, 0.98999995, 2.00000005] ++ [0.5, 2.0]) :=
    eq_ok_of_toOption (by decide +kernel)
  have hrowBelow : lampRowBelow.mapM Value.toScalar = .ok ([-1.20000005, 0.98999995, 1.99999995] ++ [0.5, 2.0]) :=
    eq_ok_of_toOption (by decide +kernel)
  obtain ⟨habove, hbelow⟩ := noisy_lampRow
  obtain ⟨hnot, hshort⟩ := someFallsShort_lampRow
  exact ⟨hcoded, hrow, habove, (ofCodes_noisy hcoded hrow hrowAbove habove).2.1 hnot, hbelow, hshort,
    (ofCodes_noisy hcoded hrow hrowBelow hbelow).2.2 hshort⟩

end Engine

end FuzzyInference
