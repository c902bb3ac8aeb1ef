import FuzzyInference.Proofs.Exact.Norms

/-!
# Chains of hedges

The hedge that stands closest to the term acts first, so that a chain is the composition of its hedges. Every
hedge but the one that matches everything is a bijection of the unit interval, which `not` reverses and the four
others keep in order. `very` and `somewhat` undo each other, and so do `extremely` and `seldom`, on both halves of
the unit interval: the curves change at one half, and take each half to itself.

The plan of this module:

* hedges as operations on the unit interval, and chains of them;
* hedges that undo each other, which makes them bijections;
* the order of degrees under one hedge and under a chain.

## Main statements

* `Hedge.onDegrees_of_undoes`: hedges that undo each other
* `Hedge.bijective_onDegreesAll`, `Hedge.strictMono_onDegreesAll`: chains without the hedge that matches everything
* `Hedge.applyAll_chain`: what a chain does to degrees
-/

namespace FuzzyInference

open Scalar Exact Checked

namespace Hedge

/-! ## §1 Chains on the unit interval -/

/-- The modified degree, as an operation on the unit interval. -/
noncomputable def onDegrees (h : Hedge) (x : unitInterval) : unitInterval := ⟨h.real x, h.real_mem x.2⟩

/-- The degree modified by a chain, from the last hedge to the first. -/
noncomputable def onDegreesAll (hs : List Hedge) (x : unitInterval) : unitInterval := hs.foldr onDegrees x

@[simp] theorem onDegreesAll_nil (x : unitInterval) : onDegreesAll [] x = x := rfl

@[simp] theorem onDegreesAll_cons (h : Hedge) (hs : List Hedge) (x : unitInterval) :
    onDegreesAll (h :: hs) x = h.onDegrees (onDegreesAll hs x) := rfl

@[simp] theorem onDegreesAll_append (hs ks : List Hedge) (x : unitInterval) :
    onDegreesAll (hs ++ ks) x = onDegreesAll hs (onDegreesAll ks x) := List.foldr_append

/-- A chain takes roots of degrees only, so that nothing is refused. -/
theorem applyAll_finite (hs : List Hedge) (x : unitInterval) :
    applyAll hs (finite x) = .ok (finite (onDegreesAll hs x)) := by
  induction hs with
  | nil => rfl
  | cons h hs ih =>
    rw [applyAll, ih, ok_bind]
    exact h.apply_finite (onDegreesAll hs x).2

/-- What matches everything forgets the degree, whatever stands around it. -/
theorem onDegreesAll_of_mem_any {hs : List Hedge} (h : any ∈ hs) (x y : unitInterval) :
    onDegreesAll hs x = onDegreesAll hs y := by
  induction hs with
  | nil => cases h
  | cons k hs ih =>
    rcases List.mem_cons.1 h with rfl | h
    · rfl
    · rw [onDegreesAll_cons, onDegreesAll_cons, ih h]

/-! ## §2 Hedges that undo each other -/

/-- The first hedge takes back what the second one does. -/
inductive Undoes : Hedge → Hedge → Prop
  | very : Undoes very somewhat
  | somewhat : Undoes somewhat very
  | extremely : Undoes extremely seldom
  | seldom : Undoes seldom extremely
  /-- A complement is taken back by another one. -/
  | not : Undoes not not

theorem Undoes.symm {h k : Hedge} (hundoes : Undoes h k) : Undoes k h := by
  cases hundoes with
  | very => exact .somewhat
  | somewhat => exact .very
  | extremely => exact .seldom
  | seldom => exact .extremely
  | not => exact .not

theorem exists_undoes {h : Hedge} (hne : h ≠ any) : ∃ k, Undoes h k := by
  cases h with
  | any => exact absurd rfl hne
  | not => exact ⟨_, .not⟩
  | extremely => exact ⟨_, .extremely⟩
  | seldom => exact ⟨_, .seldom⟩
  | somewhat => exact ⟨_, .somewhat⟩
  | very => exact ⟨_, .very⟩

variable {x : ℝ}

/-- The root of half a number of the lower half lies in the lower half again. -/
theorem sqrt_half_mul_le (hx : x ≤ half) : Real.sqrt (half * x) ≤ half := by
  rw [half_eq] at hx ⊢
  apply (Real.sqrt_le_left (by norm_num)).2
  linarith

theorem sqrt_half_mul_lt (hx : x < half) : Real.sqrt (half * x) < half := by
  rw [half_eq] at hx ⊢
  apply (Real.sqrt_lt' (by norm_num)).2
  linarith

/-- On the lower half, the square of the root is the number; the upper half is the mirror image. -/
theorem real_extremely_seldom (hx : x ∈ Set.Icc (0 : ℝ) 1) : extremely.real (seldom.real x) = x := by
  have hpos : (0 : ℝ) < half := by norm_num [half_eq]
  by_cases hlow : x ≤ half
  · have hroot := sqrt_half_mul_le hlow
    simp only [real, if_pos hlow, if_pos hroot]
    rw [Real.mul_self_sqrt (mul_nonneg hpos.le hx.1), mul_div_cancel_left₀ x hpos.ne']
  · have hmirror : 1 - x < half := by
      rw [half_eq] at hlow ⊢
      linarith
    have hroot := sqrt_half_mul_lt hmirror
    have hhigh : ¬1 - Real.sqrt (half * (1 - x)) ≤ half := by
      rw [half_eq] at hroot ⊢
      linarith
    simp only [real, if_neg hlow, if_neg hhigh, sub_sub_cancel]
    rw [Real.mul_self_sqrt (mul_nonneg hpos.le (sub_nonneg.2 hx.2)), mul_div_cancel_left₀ _ hpos.ne',
      sub_sub_cancel]

theorem real_seldom_extremely (hx : x ∈ Set.Icc (0 : ℝ) 1) : seldom.real (extremely.real x) = x := by
  have hpos : (0 : ℝ) < half := by norm_num [half_eq]
  by_cases hlow : x ≤ half
  · have hsquare : x * x / half ≤ half := by
      rw [half_eq] at hlow ⊢
      nlinarith [hx.1]
    simp only [real, if_pos hlow, if_pos hsquare]
    rw [mul_div_cancel₀ _ hpos.ne', Real.sqrt_mul_self hx.1]
  · have hhigh : ¬1 - (1 - x) * (1 - x) / half ≤ half := by
      rw [half_eq] at hlow ⊢
      nlinarith [hx.2]
    simp only [real, if_neg hlow, if_neg hhigh, sub_sub_cancel]
    rw [mul_div_cancel₀ _ hpos.ne', Real.sqrt_mul_self (sub_nonneg.2 hx.2), sub_sub_cancel]

theorem onDegrees_of_undoes {h k : Hedge} (hundoes : Undoes h k) (x : unitInterval) :
    h.onDegrees (k.onDegrees x) = x := by
  apply Subtype.ext
  show h.real (k.real x) = x
  cases hundoes with
  | very => exact Real.mul_self_sqrt x.2.1
  | somewhat => exact Real.sqrt_mul_self x.2.1
  | extremely => exact real_extremely_seldom x.2
  | seldom => exact real_seldom_extremely x.2
  | not => exact sub_sub_cancel 1 (x : ℝ)

theorem bijective_onDegrees {h : Hedge} (hne : h ≠ any) : Function.Bijective h.onDegrees := by
  obtain ⟨k, hundoes⟩ := exists_undoes hne
  apply Function.bijective_iff_has_inverse.2
  exact ⟨k.onDegrees, onDegrees_of_undoes hundoes.symm, onDegrees_of_undoes hundoes⟩

/-- A chain without the hedge that matches everything is a bijection. -/
theorem bijective_onDegreesAll {hs : List Hedge} (h : any ∉ hs) : Function.Bijective (onDegreesAll hs) := by
  induction hs with
  | nil => exact Function.bijective_id
  | cons k hs ih =>
    obtain ⟨hk, hhs⟩ := not_or.1 (mt List.mem_cons.2 h)
    exact (bijective_onDegrees (Ne.symm hk)).comp (ih hhs)

/-! ## §3 The order of degrees -/

theorem strictMono_very : StrictMono very.onDegrees := by
  intro x y hxy
  show (x : ℝ) * x < y * y
  exact mul_self_lt_mul_self x.2.1 hxy

theorem strictMono_extremely : StrictMono extremely.onDegrees := by
  intro x y hxy
  have hlt : (x : ℝ) < y := hxy
  show extremely.real x < extremely.real y
  -- both degrees lie in one half, or the halves separate them
  by_cases hy : (y : ℝ) ≤ half
  · rw [real, real, if_pos (hlt.le.trans hy), if_pos hy, half_eq]
    nlinarith [x.2.1]
  · by_cases hx : (x : ℝ) ≤ half
    · rw [real, real, if_pos hx, if_neg hy]
      rw [half_eq] at hx hy ⊢
      nlinarith [x.2.1, y.2.2]
    · rw [real, real, if_neg hx, if_neg hy, half_eq]
      nlinarith [y.2.2]

/-- What undoes a hedge that keeps the order keeps it too. -/
theorem strictMono_of_undoes {h k : Hedge} (hundoes : Undoes h k) (hmono : StrictMono h.onDegrees) :
    StrictMono k.onDegrees := by
  intro x y hxy
  apply hmono.lt_iff_lt.1
  rw [onDegrees_of_undoes hundoes, onDegrees_of_undoes hundoes]
  exact hxy

theorem strictMono_onDegrees {h : Hedge} (hany : h ≠ any) (hnot : h ≠ not) : StrictMono h.onDegrees := by
  cases h with
  | any => exact absurd rfl hany
  | not => exact absurd rfl hnot
  | extremely => exact strictMono_extremely
  | seldom => exact strictMono_of_undoes .extremely strictMono_extremely
  | somewhat => exact strictMono_of_undoes .very strictMono_very
  | very => exact strictMono_very

theorem strictAnti_not : StrictAnti not.onDegrees := by
  intro x y hxy
  have hlt : (x : ℝ) < y := hxy
  show 1 - (y : ℝ) < 1 - x
  exact sub_lt_sub_left hlt 1

/-- A chain keeps the order of degrees when `not` occurs in it an even number of times, and reverses it
otherwise. -/
theorem strictMono_onDegreesAll {hs : List Hedge} (h : any ∉ hs) :
    (Even (hs.count not) → StrictMono (onDegreesAll hs)) ∧
    (Odd (hs.count not) → StrictAnti (onDegreesAll hs)) := by
  induction hs with
  | nil =>
    refine ⟨fun _ => strictMono_id, fun hodd => ?_⟩
    simp at hodd
  | cons k hs ih =>
    obtain ⟨hk, hhs⟩ := not_or.1 (mt List.mem_cons.2 h)
    obtain ⟨heven, hodd⟩ := ih hhs
    by_cases hnot : k = not
    · -- one more `not` changes both the parity and the direction
      subst hnot
      rw [List.count_cons_self]
      constructor
      · intro hparity
        exact strictAnti_not.comp (hodd (by simpa [Nat.even_add_one] using hparity))
      · intro hparity
        exact strictAnti_not.comp_strictMono (heven (by simpa [Nat.odd_add_one] using hparity))
    · have hmono := strictMono_onDegrees (Ne.symm hk) hnot
      rw [List.count_cons_of_ne hnot]
      exact ⟨fun hparity => hmono.comp (heven hparity), fun hparity => hmono.comp_strictAnti (hodd hparity)⟩

/-! ## §4 What chains do -/

/-- What a chain of hedges does to degrees.

* It is not refused on any degree and gives a degree again. This degree is the same for all of them when the chain
  contains the hedge that matches everything; otherwise the chain is a bijection, which keeps the order of degrees
  where `not` occurs an even number of times and reverses it where `not` occurs an odd number of times.
* A chain in front of another one acts on what that one gives.
* Two hedges that undo each other can be left out where they stand side by side. -/
theorem applyAll_chain (hs : List Hedge) :
    (∃ f : unitInterval → unitInterval, (∀ x : unitInterval, applyAll hs (finite x) = .ok (finite (f x))) ∧
      (any ∈ hs → ∃ c, ∀ x, f x = c) ∧
      (any ∉ hs → Function.Bijective f ∧ (Even (hs.count not) → StrictMono f) ∧
        (Odd (hs.count not) → StrictAnti f))) ∧
    (∀ (ks : List Hedge) (x : unitInterval),
      applyAll (hs ++ ks) (finite x) = applyAll ks (finite x) >>= applyAll hs) ∧
    ∀ (h k : Hedge) (ks : List Hedge) (x : unitInterval), Undoes h k →
      applyAll (hs ++ h :: k :: ks) (finite x) = applyAll (hs ++ ks) (finite x) := by
  refine ⟨⟨onDegreesAll hs, applyAll_finite hs, fun hany => ?_, fun hany => ?_⟩, fun ks x => ?_,
    fun h k ks x hundoes => ?_⟩
  · exact ⟨onDegreesAll hs 0, fun x => onDegreesAll_of_mem_any hany x 0⟩
  · exact ⟨bijective_onDegreesAll hany, strictMono_onDegreesAll hany⟩
  · exact applyAll_append hs ks (finite x)
  · rw [applyAll_finite, applyAll_finite]
    simp [onDegrees_of_undoes hundoes]

/-- `not extremely seldom somewhat` is `not somewhat`, which reverses the order of degrees. -/
theorem applyAll_chain_reversing :
    any ∉ [not, somewhat] ∧ Odd ([not, somewhat].count not) ∧ Undoes extremely seldom ∧
    (∃ f : unitInterval → unitInterval,
      (∀ x : unitInterval, applyAll [not, somewhat] (finite x) = .ok (finite (f x))) ∧ StrictAnti f) ∧
    ∀ x : unitInterval,
      applyAll [not, extremely, seldom, somewhat] (finite x) = applyAll [not, somewhat] (finite x) := by
  have hany : any ∉ [not, somewhat] := by decide
  have hodd : Odd ([not, somewhat].count not) := by decide
  obtain ⟨⟨f, hf, -, hbijective⟩, -, -⟩ := applyAll_chain [not, somewhat]
  obtain ⟨-, -, hpair⟩ := applyAll_chain [not]
  refine ⟨hany, hodd, .extremely, ⟨f, hf, (hbijective hany).2.2 hodd⟩, fun x => ?_⟩
  exact hpair extremely seldom [somewhat] x .extremely

end Hedge

end FuzzyInference
