import FuzzyInference.Defuzzifier
import FuzzyInference.Proofs.Value
import FuzzyInference.Proofs.Exact.Scalars

/-!
# Weighted averages

Where activated terms are constants or combinations of inputs, a weighted average takes the mean of their values,
each with the degree to which the term is activated. Such a mean lies between the values, it does not depend on the
order in which terms are activated, and a factor that all degrees have in common cancels out.

Degrees are compared with zero by a tolerance, so that all of this is said of degrees whose sum reaches it.

The plan of this module:

* terms that have a value;
* the sums of a weighted defuzzifier, and their quotient;
* degrees with a common factor.

## Main statements

* `addContributions_map`: both sums
* `average_map`: the mean
* `average_scale`: the mean under a common factor
-/

namespace FuzzyInference

open Scalar Exact Checked

/-! ## §1 Terms that have a value -/

namespace Term

/-- The term has a real value whatever its argument: it is a constant, or a combination of the inputs around. -/
def HasValue (around : Option (Surroundings Exact)) (t : Term Exact) (z : ℝ) : Prop :=
  t.body = .constant (finite z) ∨
    ∃ cs s, t.body = .linear cs ∧ around = some s ∧ combine cs (s.inputs.map Prod.snd) = finite z

variable {around : Option (Surroundings Exact)} {t : Term Exact} {z : ℝ}

theorem HasValue.membership_eq (h : t.HasValue around z) (x : Exact) : t.membership around x = .ok (finite z) := by
  unfold membership
  obtain hconstant | ⟨cs, s, hlinear, rfl, hcombine⟩ := h
  · rw [hconstant]
  · rw [hlinear]
    exact congrArg Except.ok hcombine

theorem HasValue.isCrisp_eq (h : t.HasValue around z) : t.isCrisp = true := by
  unfold isCrisp kind
  obtain hconstant | ⟨cs, s, hlinear, -, -⟩ := h
  · rw [hconstant]
    rfl
  · rw [hlinear]
    rfl

/-- Nothing but the inputs around matters for the value. -/
theorem HasValue.of_inputs {s s' : Surroundings Exact} (h : t.HasValue (some s) z) (hinputs : s'.inputs = s.inputs) :
    t.HasValue (some s') z := by
  obtain hconstant | ⟨cs, r, hlinear, hr, hcombine⟩ := h
  · exact .inl hconstant
  · obtain rfl := Option.some.inj hr
    exact .inr ⟨cs, s', hlinear, rfl, by rw [hinputs, hcombine]⟩

end Term

/-! ## §2 Means -/

/-- A weighted defuzzifier takes the activated term for a real value with a real weight. -/
structure Activated.Weighs (around : Option (Surroundings Exact)) (a : Activated Exact) (w z : ℝ) : Prop where
  degree : a.degree = finite w
  value : a.term.HasValue around z
  implication : a.implication = none ∨ a.implication = some .algebraicProduct

namespace Exact

section Means

variable {ι : Type} {around : Option (Surroundings Exact)} {l : List ι} {f : ι → Activated Exact} {w z : ι → ℝ}

/-- A weight times its value. -/
theorem implied_of_weighs {a : Activated Exact} {w z : ℝ} (h : a.Weighs around w z) :
    implied a.implication a.degree (finite z) = .ok (finite (w * z)) := by
  unfold implied
  rw [h.degree]
  obtain hnone | hproduct := h.implication
  · rw [hnone]
    rfl
  · rw [hproduct]
    rfl

/-- Both sums of a weighted defuzzifier. -/
theorem addContributions_map (h : ∀ i ∈ l, (f i).Weighs around (w i) (z i)) (minimum maximum : Exact) (a b : ℝ) :
    addContributions around .takagiSugeno minimum maximum none (finite a, finite b) (l.map f) =
      .ok (finite (a + (l.map fun i => w i * z i).sum), finite (b + (l.map w).sum)) := by
  induction l generalizing a b with
  | nil => simp [addContributions]
  | cons i l ih =>
    obtain ⟨hi, hl⟩ := List.forall_mem_cons.1 h
    have hcontribution : contribution around .takagiSugeno minimum maximum (f i) = .ok (finite (z i)) :=
      hi.value.membership_eq _
    rw [List.map_cons, addContributions, hcontribution, ok_bind, implied_of_weighs hi, hi.degree]
    show addContributions around .takagiSugeno minimum maximum none
      (finite a + finite (w i * z i), finite b + finite (w i)) _ = _
    rw [finite_add, finite_add, ih hl, List.map_cons, List.map_cons, List.sum_cons, List.sum_cons, add_assoc,
      add_assoc]

variable {s : Aggregated Exact} {type : WeightedType}

/-- The first activated term is crisp, so that the automatic type is the one for crisp values. -/
theorem resolve_map (htype : type ≠ .tsukamoto) (hterms : s.terms = l.map f) (hne : l ≠ [])
    (h : ∀ i ∈ l, (f i).Weighs around (w i) (z i)) : type.resolve s = .takagiSugeno := by
  obtain ⟨i, l, rfl⟩ := List.exists_cons_of_ne_nil hne
  cases type with
  | takagiSugeno => rfl
  | tsukamoto => exact absurd rfl htype
  | automatic =>
    unfold WeightedType.resolve
    rw [hterms, List.map_cons]
    show WeightedType.infer (.term (f i).term) = _
    exact if_pos (h i List.mem_cons_self).value.isCrisp_eq

/-- Activated terms that have values have their mean as average. -/
theorem average_map (htype : type ≠ .tsukamoto) (haggregation : s.aggregation = none) (hterms : s.terms = l.map f)
    (hne : l ≠ []) (h : ∀ i ∈ l, (f i).Weighs around (w i) (z i)) (hweights : epsilon ≤ (l.map w).sum)
    (minimum maximum : Exact) :
    (Defuzzifier.weighted .average type).defuzzify around (.aggregated s) minimum maximum =
      .ok (finite ((l.map fun i => w i * z i).sum / (l.map w).sum)) := by
  have hpos : 0 < (l.map w).sum := epsilon_pos.trans_le hweights
  have hempty : s.isEmpty = false := by
    rw [Aggregated.isEmpty, hterms, List.isEmpty_map]
    exact List.isEmpty_eq_false_iff.2 hne
  have hsums : weightedSums around type s minimum maximum =
      .ok (finite (l.map fun i => w i * z i).sum, finite (l.map w).sum) := by
    rw [weightedSums, resolve_map htype hterms hne h, haggregation, hterms, literal_zero,
      addContributions_map h, zero_add, zero_add]
  have hnegligible : negligible (finite (l.map w).sum) = false := by
    rw [negligible, abs_finite, tolerance_eq, abs_of_pos hpos]
    exact decide_eq_false (mt finite_lt_finite.1 (not_lt.2 hweights))
  simp only [Defuzzifier.defuzzify, hempty, hsums, ok_bind, hnegligible]
  exact liftM_eq_ok_iff.2 (divide_finite hpos.ne')

/-- The sum of numbers that reach the tolerance reaches it, if there are any. -/
theorem epsilon_le_sum (hne : l ≠ []) (h : ∀ i ∈ l, epsilon ≤ w i) : epsilon ≤ (l.map w).sum := by
  obtain ⟨i, l, rfl⟩ := List.exists_cons_of_ne_nil hne
  obtain ⟨hi, hl⟩ := List.forall_mem_cons.1 h
  have hrest : 0 ≤ (l.map w).sum := by
    refine List.sum_nonneg fun y hy => ?_
    obtain ⟨j, hj, rfl⟩ := List.mem_map.1 hy
    exact epsilon_pos.le.trans (hl j hj)
  rw [List.map_cons, List.sum_cons]
  linarith

/-- A mean lies between bounds of the values. -/
theorem quotient_mem {lower upper : ℝ} (hw : ∀ i ∈ l, 0 ≤ w i) (hz : ∀ i ∈ l, z i ∈ Set.Icc lower upper)
    (hpos : 0 < (l.map w).sum) :
    (l.map fun i => w i * z i).sum / (l.map w).sum ∈ Set.Icc lower upper := by
  rw [Set.mem_Icc, le_div_iff₀ hpos, div_le_iff₀ hpos, mul_comm lower, mul_comm upper, ← List.sum_map_mul_right,
    ← List.sum_map_mul_right]
  constructor
  · exact List.sum_le_sum fun i hi => mul_le_mul_of_nonneg_left (hz i hi).1 (hw i hi)
  · exact List.sum_le_sum fun i hi => mul_le_mul_of_nonneg_left (hz i hi).2 (hw i hi)

end Means

end Exact

/-! ## §3 Degrees with a common factor -/

/-- The term activated to a multiple of its degree. -/
noncomputable def Activated.scale (c : ℝ) (a : Activated Exact) : Activated Exact :=
  { a with degree := finite c * a.degree }

theorem Activated.Weighs.scale {around : Option (Surroundings Exact)} {a : Activated Exact} {w z : ℝ}
    (h : a.Weighs around w z) (c : ℝ) : (a.scale c).Weighs around (c * w) z :=
  ⟨by rw [Activated.scale, h.degree, finite_mul], h.value, h.implication⟩

/-- A factor that all degrees have in common does not change a mean. -/
theorem Exact.average_scale {around : Option (Surroundings Exact)} {type : WeightedType} (htype : type ≠ .tsukamoto)
    {s : Aggregated Exact} (haggregation : s.aggregation = none) {as : List (Activated Exact)} {c : ℝ}
    (hterms : s.terms = as.map (Activated.scale c)) (hne : as ≠ []) {w z : Activated Exact → ℝ}
    (h : ∀ a ∈ as, a.Weighs around (w a) (z a)) (hweights : epsilon ≤ c * (as.map w).sum)
    (minimum maximum : Exact) :
    (Defuzzifier.weighted .average type).defuzzify around (.aggregated s) minimum maximum =
      .ok (finite ((as.map fun a => w a * z a).sum / (as.map w).sum)) := by
  have hc : c ≠ 0 := by
    rintro rfl
    rw [zero_mul] at hweights
    exact hweights.not_gt epsilon_pos
  have hfactor : (as.map fun a => c * w a).sum = c * (as.map w).sum := List.sum_map_mul_left as w c
  have hvalues : (as.map fun a => c * w a * z a).sum = c * (as.map fun a => w a * z a).sum := by
    simp only [mul_assoc, List.sum_map_mul_left]
  rw [average_map htype haggregation hterms hne (fun a ha => (h a ha).scale c) (by rwa [hfactor]), hfactor, hvalues,
    mul_div_mul_left _ _ hc]

end FuzzyInference
