import FuzzyInference.Proofs.Cycle
import FuzzyInference.Proofs.Exact.Averages

/-!
# Interpolation between knots

Triangles over a row of knots, each of which reaches from the knot before to the knot after, cut the unit into
shares: between two knots the triangles of these two rise and fall along one line, and all others are zero. An
engine whose rules give every knot a crisp value, and whose defuzzifier averages, therefore interpolates
linearly between these values.

Comparison is tolerant, so that the triangles are exact only on the knots and off a margin around them, and a
rule fires only when its degree is not within the tolerance of zero. Elsewhere the law is not claimed.

The plan of this module:

* the sides of a triangle;
* rows of knots, and the degrees of their triangles;
* engines with a rule for every knot, and the mean that they compute;
* interpolation.

## Main statements

* `Partition.degree_shape`: the degrees of all triangles at a value between two knots
* `Interpolator.yields_mean`: the mean of the values of the rules that fire
* `Interpolator.interpolates`: the value on the knots and between them
-/

namespace FuzzyInference

open Scalar Exact Checked

/-! ## §1 Triangles -/

namespace Shape

variable {a c : Exact} {x y z : ℝ}

/-- To the right of its top, a triangle falls along a line. -/
theorem degree_triangle_falling (ha : a ≤ finite y) (hyz : y + epsilon ≤ z) (hx : x = y ∨ y + epsilon ≤ x)
    (hxz : x ≤ z) :
    (triangle a (finite y) (finite z)).degree 1.0 (finite x) = .ok (finite ((z - x) / (z - y))) := by
  have hpos := epsilon_pos
  have hyx : y ≤ x := hx.elim (fun h => h.ge) fun h => by linarith
  have hne : z - y ≠ 0 := by linarith
  have hoff : (below (finite x) a || above (finite x) (finite z)) = false := by
    rw [below_eq_false ha hyx, above_eq_false (finite_le_finite.2 le_rfl) hxz, Bool.or_false]
  rw [degree, hoff, if_neg Bool.false_ne_true]
  obtain rfl | hfar := hx
  · -- the top itself
    rw [near_finite, sub_self, abs_zero, if_pos (decide_eq_true hpos), div_self hne, literal_one, finite_mul,
      mul_one]
  · have hnear : near (finite x) (finite y) = false := by
      rw [near_finite, abs_of_pos (by linarith)]
      exact decide_eq_false (by linarith)
    have hbelow : below (finite x) (finite y) = false := below_eq_false (finite_le_finite.2 le_rfl) hyx
    rw [hnear, hbelow, (finite_beq_inf z).1, if_neg Bool.false_ne_true, if_neg Bool.false_ne_true,
      if_neg Bool.false_ne_true, literal_one, finite_sub, finite_sub, finite_mul, divide_finite hne, one_mul]

/-- To the left of its top, a triangle rises along a line. -/
theorem degree_triangle_rising (hc : finite z ≤ c) (hyz : y + epsilon ≤ z) (hx : x = z ∨ x + epsilon ≤ z)
    (hyx : y ≤ x) :
    (triangle (finite y) (finite z) c).degree 1.0 (finite x) = .ok (finite ((x - y) / (z - y))) := by
  have hpos := epsilon_pos
  have hxz : x ≤ z := hx.elim (fun h => h.le) fun h => by linarith
  have hne : z - y ≠ 0 := by linarith
  have hoff : (below (finite x) (finite y) || above (finite x) c) = false := by
    rw [below_eq_false (finite_le_finite.2 le_rfl) hyx, above_eq_false hc hxz, Bool.or_false]
  rw [degree, hoff, if_neg Bool.false_ne_true]
  obtain rfl | hfar := hx
  · rw [near_finite, sub_self, abs_zero, if_pos (decide_eq_true hpos), div_self hne, literal_one, finite_mul,
      mul_one]
  · have hnear : near (finite x) (finite z) = false := by
      rw [near_finite, abs_of_neg (by linarith)]
      exact decide_eq_false (by linarith)
    rw [hnear, below_finite, if_neg Bool.false_ne_true, if_pos (decide_eq_true hfar), (finite_beq_inf y).2,
      if_neg Bool.false_ne_true, literal_one, finite_sub, finite_sub, finite_mul, divide_finite hne, one_mul]

/-- From its right vertex on a triangle is zero. -/
theorem degree_triangle_right (ha : a ≤ finite y) (hyz : y + epsilon ≤ z) (hx : x = z ∨ z + epsilon ≤ x) :
    (triangle a (finite y) (finite z)).degree 1.0 (finite x) = .ok (finite 0) := by
  obtain rfl | hfar := hx
  · -- the falling side ends at zero
    have hfalling := degree_triangle_falling ha hyz (.inr hyz) (le_refl x)
    rw [hfalling, sub_self, zero_div]
  · rw [degree, above_finite, decide_eq_true hfar, Bool.or_true, if_pos rfl, literal_zero]

/-- Up to its left vertex a triangle is zero. -/
theorem degree_triangle_left (hc : finite z ≤ c) (hyz : y + epsilon ≤ z) (hx : x = y ∨ x + epsilon ≤ y) :
    (triangle (finite y) (finite z) c).degree 1.0 (finite x) = .ok (finite 0) := by
  obtain rfl | hfar := hx
  · have hrising := degree_triangle_rising hc hyz (.inr hyz) (le_refl x)
    rw [hrising, sub_self, zero_div]
  · rw [degree, below_finite, decide_eq_true hfar, Bool.true_or, if_pos rfl, literal_zero]

end Shape

/-! ## §2 Rows of knots -/

/-- Two or more knots in increasing order, which are not within the tolerance of each other, and a vertex outside
them at either end, which may be infinite. -/
structure Partition where
  count : Nat
  two_le : 2 ≤ count
  /-- The knots, counted from zero. Those from the count on do not matter. -/
  knot : Nat → ℝ
  spaced : ∀ i, i + 1 < count → knot i + epsilon ≤ knot (i + 1)
  first : Exact
  first_le : first ≤ finite (knot 0 - epsilon)
  last : Exact
  le_last : finite (knot (count - 1) + epsilon) ≤ last

namespace Exact

theorem le_finite_trans {a : Exact} {x y : ℝ} (h : a ≤ finite x) (hxy : x ≤ y) : a ≤ finite y := by
  cases a with
  | finite z => exact finite_le_finite.2 ((finite_le_finite.1 h).trans hxy)
  | negInf => exact .inl trivial
  | nan =>
    obtain hless | ⟨-, hne⟩ := h
    · exact hless.elim
    · exact absurd rfl hne
  | posInf =>
    obtain hless | ⟨hsame, -⟩ := h
    · exact hless.elim
    · cases hsame

theorem finite_le_trans {a : Exact} {x y : ℝ} (hxy : x ≤ y) (h : finite y ≤ a) : finite x ≤ a := by
  cases a with
  | finite z => exact finite_le_finite.2 (hxy.trans (finite_le_finite.1 h))
  | posInf => exact .inl trivial
  | nan =>
    obtain hless | ⟨hsame, -⟩ := h
    · exact hless.elim
    · cases hsame
  | negInf =>
    obtain hless | ⟨hsame, -⟩ := h
    · exact hless.elim
    · cases hsame

end Exact

namespace Partition

variable (p : Partition)

/-- The knot before a knot, or the vertex outside. -/
def before : Nat → Exact
  | 0 => p.first
  | i + 1 => finite (p.knot i)

/-- The knot after a knot, or the vertex outside. -/
noncomputable def after (i : Nat) : Exact := if i + 1 < p.count then finite (p.knot (i + 1)) else p.last

/-- The triangle over a knot, from the knot before to the knot after. -/
noncomputable def shape (i : Nat) : Shape Exact := .triangle (p.before i) (finite (p.knot i)) (p.after i)

/-- The value lies between a knot and the next one, and within the tolerance of neither unless it is the knot. -/
def Clear (i : Nat) (x : ℝ) : Prop :=
  (x = p.knot i ∨ p.knot i + epsilon ≤ x) ∧ (x = p.knot (i + 1) ∨ x + epsilon ≤ p.knot (i + 1))

/-- The degrees of all triangles at a value between a knot and the next one. -/
noncomputable def share (i : Nat) (x : ℝ) (j : Nat) : ℝ :=
  if j = i then (p.knot (i + 1) - x) / (p.knot (i + 1) - p.knot i)
  else if j = i + 1 then (x - p.knot i) / (p.knot (i + 1) - p.knot i)
  else 0

variable {p} {i j : Nat} {x : ℝ}

theorem before_le (hi : i < p.count) : p.before i ≤ finite (p.knot i) := by
  have hpos := epsilon_pos
  cases i with
  | zero => exact le_finite_trans p.first_le (by linarith)
  | succ i => exact finite_le_finite.2 (by linarith [p.spaced i hi])

theorem after_of_lt (hi : i + 1 < p.count) : p.after i = finite (p.knot (i + 1)) := if_pos hi

theorem le_after (hi : i < p.count) : finite (p.knot i) ≤ p.after i := by
  have hpos := epsilon_pos
  by_cases hnext : i + 1 < p.count
  · rw [after_of_lt hnext]
    exact finite_le_finite.2 (by linarith [p.spaced i hnext])
  · have hlast : p.count - 1 = i := by omega
    have hle := p.le_last
    rw [hlast] at hle
    rw [after, if_neg hnext]
    exact finite_le_trans (by linarith) hle

/-- Later knots are greater, and not within the tolerance. -/
theorem knot_add_le (hij : i < j) (hj : j < p.count) : p.knot i + epsilon ≤ p.knot j := by
  have hpos := epsilon_pos
  induction j, hij using Nat.le_induction with
  | base => exact p.spaced i hj
  | succ j _ ih => linarith [ih (by omega), p.spaced j hj]

/-- A knot is clear of the next one, and of the one before. -/
theorem clear_left (hi : i + 1 < p.count) : p.Clear i (p.knot i) := ⟨.inl rfl, .inr (p.spaced i hi)⟩

theorem clear_right (hi : i + 1 < p.count) : p.Clear i (p.knot (i + 1)) := ⟨.inr (p.spaced i hi), .inl rfl⟩

/-- The triangles cut the unit into shares: between two knots those of these two share it, and the others have
none of it. -/
theorem degree_shape (hi : i + 1 < p.count) (hx : p.Clear i x) (hj : j < p.count) :
    (p.shape j).degree 1.0 (finite x) = .ok (finite (p.share i x j)) := by
  have hpos := epsilon_pos
  obtain ⟨hleft, hright⟩ := hx
  have hix : p.knot i ≤ x := hleft.elim (fun h => h.ge) fun h => by linarith
  have hxi : x ≤ p.knot (i + 1) := hright.elim (fun h => h.le) fun h => by linarith
  -- from left to right: triangles before the two, the two, and those after them
  obtain hji | rfl | hij := Nat.lt_trichotomy j i
  · have hnext : j + 1 < p.count := by omega
    have hknot : x = p.knot (j + 1) ∨ p.knot (j + 1) + epsilon ≤ x := by
      obtain rfl | hlt : j + 1 = i ∨ j + 1 < i := by omega
      · exact hleft
      · exact .inr ((knot_add_le hlt (by omega)).trans hix)
    rw [share, if_neg (by omega), if_neg (by omega), shape, after_of_lt hnext]
    exact Shape.degree_triangle_right (before_le hj) (p.spaced j hnext) hknot
  · rw [share, if_pos rfl, shape, after_of_lt hi]
    exact Shape.degree_triangle_falling (before_le hj) (p.spaced j hi) hleft hxi
  · obtain rfl | hlt : j = i + 1 ∨ i + 1 < j := by omega
    · rw [share, if_neg (by omega), if_pos rfl]
      exact Shape.degree_triangle_rising (le_after hj) (p.spaced i hi) hright hix
    · rw [share, if_neg (by omega), if_neg (by omega)]
      cases j with
      | zero => omega
      | succ j =>
        have hknot : x = p.knot j ∨ x + epsilon ≤ p.knot j := by
          obtain rfl | hlt' : i + 1 = j ∨ i + 1 < j := by omega
          · exact hright
          · exact .inr (by linarith [knot_add_le hlt' (by omega : j < p.count)])
        exact Shape.degree_triangle_left (le_after hj) (p.spaced j hj) hknot

/-- Two shares make up the unit. -/
theorem share_add_share (hi : i + 1 < p.count) : p.share i x i + p.share i x (i + 1) = 1 := by
  have hne : p.knot (i + 1) - p.knot i ≠ 0 := by linarith [p.spaced i hi, epsilon_pos]
  rw [share, if_pos rfl, share, if_neg (by omega), if_pos rfl, ← add_div, sub_add_sub_cancel, div_self hne]

end Partition

/-! ## §3 Engines with a rule for every knot -/

/-- The rule `if v is t then w is u`, of weight one, is enabled and loaded. -/
structure Rule.Maps (r : Rule Exact) (v : Variable Exact) (t : Term Exact) (w : OutputVariable Exact)
    (u : Term Exact) : Prop where
  enabled : r.enabled = true
  weight : r.weight = 1.0
  antecedent : r.antecedent =
    some (.proposition ⟨⟨v.id, v.name.asText, false⟩, [], some ⟨t.id, t.name.asText⟩⟩)
  conclusions : r.conclusions = [⟨⟨w.id, w.name.asText, true⟩, [], some ⟨u.id, u.name.asText⟩⟩]

/-- An engine that has a triangle on its input, a constant on its output and a rule from the one to the other for
every knot. Names, ranges and whatever cycles before have left behind are free. -/
structure Interpolator extends Partition where
  /-- The values at the knots. -/
  level : Nat → ℝ
  engine : Engine Exact
  input : Variable Exact
  output : OutputVariable Exact
  block : RuleBlock Exact
  triangle : Nat → Term Exact
  constant : Nat → Term Exact
  rule : Nat → Rule Exact
  inputs_eq : engine.inputs = [input]
  outputs_eq : engine.outputs = [output]
  blocks_eq : engine.blocks = [block]
  input_enabled : input.enabled = true
  input_terms : input.terms = (List.range count).map triangle
  body_triangle : ∀ i < count, (triangle i).body = .shape (toPartition.shape i) 1.0
  id_triangle : ∀ i < count, ∀ j < count, (triangle i).id = (triangle j).id → i = j
  output_enabled : output.enabled = true
  output_unlocked : output.lockValueInRange = false
  output_terms : output.terms = (List.range count).map constant
  body_constant : ∀ i < count, (constant i).body = .constant (finite (level i))
  id_constant : ∀ i < count, ∀ j < count, (constant i).id = (constant j).id → i = j
  aggregation : output.fuzzyOutput.aggregation = none
  defuzzifier : output.defuzzifier = some (.weighted .average .automatic) ∨
    output.defuzzifier = some (.weighted .average .takagiSugeno)
  block_enabled : block.enabled = true
  implication : block.implication = none
  activation : block.method = .general
  rules_eq : block.rules = (List.range count).map rule
  maps : ∀ i < count, (rule i).Maps input (triangle i) output (constant i)

/-- Of terms with different identities, each is found by its own. -/
theorem find?_map_range {term : Nat → Term Exact} {n : Nat}
    (hid : ∀ i < n, ∀ j < n, (term i).id = (term j).id → i = j) {i : Nat} (hi : i < n) (rest : List (Term Exact)) :
    ((List.range n).map term ++ rest).find? (fun t => t.id == (term i).id) = some (term i) := by
  have hrange : (List.range n).find? ((fun t : Term Exact => t.id == (term i).id) ∘ term) = some i := by
    refine List.find?_range_eq_some.2 ⟨beq_self_eq_true _, List.mem_range.2 hi, fun j hj => ?_⟩
    have hne : (term j).id ≠ (term i).id := fun h => hj.ne (hid j (hj.trans hi) i hi h)
    simpa using hne
  rw [List.find?_append, List.find?_map, hrange]
  rfl

namespace Interpolator

variable (p : Interpolator)

/-- A cycle is completed, and leaves the output with a value. -/
def Yields (y : ℝ) : Prop :=
  p.engine.process.error = none ∧ p.engine.process.state.outputs.map (fun v => v.value) = [finite y]

/-- The variables that the block sees. -/
noncomputable def store : Variables Exact := Engine.clearOutputs p.engine.store

/-- The rules that fire when the input has these degrees in the triangles. -/
noncomputable def firing (m : Nat → ℝ) : List Nat := (List.range p.count).filter fun i => decide (epsilon ≤ m i)

/-- What a rule adds that fires with a degree. -/
noncomputable def activated (m : Nat → ℝ) (i : Nat) : Activated Exact := ⟨p.constant i, finite (m i), none⟩

variable {p} {m : Nat → ℝ} {i : Nat}

theorem input?_store : p.store.input? p.input.id = some p.input := by
  have hinputs : p.store.inputs = [p.input] := p.inputs_eq
  rw [Variables.input?, hinputs, List.cons_append]
  exact List.find?_cons_of_pos (beq_self_eq_true p.input.id)

theorem outputs_store : p.store.outputs = [p.output.clearFuzzyOutput] := by
  have houtputs : p.engine.store.outputs = [p.output] := p.outputs_eq
  rw [store, Engine.clearOutputs, houtputs]
  rfl

theorem output?_store : p.store.output? p.output.id = some p.output.clearFuzzyOutput := by
  rw [Variables.output?, outputs_store, List.cons_append]
  exact List.find?_cons_of_pos (beq_self_eq_true p.output.id)

/-- The terms of the input are the triangles over the knots. -/
theorem membership_triangle (hi : i < p.count) (around : Option (Surroundings Exact)) (x : ℝ) :
    (p.triangle i).membership around (finite x) = liftM ((p.shape i).degree 1.0 (finite x)) := by
  have hblank : (p.shape i).isBlank = false := rfl
  rw [Term.membership, p.body_triangle i hi]
  show (p.shape i).membership (p.triangle i).name.asText 1.0 (finite x) = _
  rw [Shape.membership, isNaN_finite, hblank, if_neg Bool.false_ne_true, if_neg Bool.false_ne_true]

/-! ### The block -/

/-- A rule has the degree of the input in its triangle. -/
theorem weightedDegree_rule (hi : i < p.count)
    (hm : (p.triangle i).membership (some p.store.surroundings) p.input.value = .ok (finite (m i))) :
    (p.rule i).weightedDegree p.store p.block.conjunction p.block.disjunction = .ok (finite (m i)) := by
  have hmaps := p.maps i hi
  have hloaded : (p.rule i).isLoaded = true := by
    rw [Rule.isLoaded, hmaps.antecedent, hmaps.conclusions]
    rfl
  have hterm : p.input.termById? (p.triangle i).id = some (p.triangle i) := by
    rw [Variable.termById?, p.input_terms]
    exact find?_map_range p.id_triangle hi _
  have hdegree : p.store.degreeOf
      ⟨⟨p.input.id, p.input.name.asText, false⟩, [], some ⟨(p.triangle i).id, (p.triangle i).name.asText⟩⟩ =
        .ok (finite (m i)) := by
    have henabled : p.store.isEnabled ⟨p.input.id, p.input.name.asText, false⟩ = true := by
      simp [Variables.isEnabled, input?_store, p.input_enabled]
    simp only [Variables.degreeOf, henabled, Proposition.matchesAny, Variables.reached, input?_store, hterm, hm]
    rfl
  rw [Rule.weightedDegree, if_pos hloaded, Rule.antecedentDegree, hmaps.antecedent]
  show (p.store.degreeOf _ >>= fun d => Except.ok ((p.rule i).weight * d)) = _
  rw [hdegree, ok_bind, hmaps.weight, literal_one, finite_mul, one_mul]

/-- All rules have the degrees of the input in their triangles. -/
theorem degrees_block
    (hm : ∀ i < p.count, (p.triangle i).membership (some p.store.surroundings) p.input.value = .ok (finite (m i))) :
    p.block.degrees p.store = .ok ((List.range p.count).map fun i => (finite (m i), i)) := by
  -- the rules from any place on
  have hfrom : ∀ k n, n + k = p.count →
      RuleBlock.degreesFrom p.store p.block n ((List.range' n k).map p.rule) =
        .ok ((List.range' n k).map fun i => (finite (m i), i)) := by
    intro k
    induction k with
    | zero => intro n _; rfl
    | succ k ih =>
      intro n hn
      have hlt : n < p.count := by omega
      have hmaps := p.maps n hlt
      have hactive : RuleBlock.isActive (p.rule n) = true := by
        rw [RuleBlock.isActive, Rule.isLoaded, hmaps.enabled, hmaps.antecedent, hmaps.conclusions]
        rfl
      rw [List.range'_succ, List.map_cons, RuleBlock.degreesFrom_cons, if_pos hactive,
        weightedDegree_rule hlt (hm n hlt), ok_bind, ih (n + 1) (by omega), ok_bind]
      rfl
  rw [RuleBlock.degrees, p.rules_eq, List.range_eq_range']
  exact hfrom p.count 0 (Nat.zero_add _)

/-- The rules that fire are those whose degree is not within the tolerance of zero. -/
theorem fired_block :
    p.block.fired ((List.range p.count).map fun i => (finite (m i), i)) =
      (p.firing m).map fun i => (finite (m i), i) := by
  have hfires : ((Activation.fires : Exact × Nat → Bool) ∘ fun i => (finite (m i), i)) =
      fun i => decide (epsilon ≤ m i) := by
    funext i
    show above (finite (m i)) 0.0 = _
    rw [literal_zero, above_finite, zero_add]
  rw [RuleBlock.fired, p.activation]
  show List.filter _ (List.filter _ _) = _
  rw [List.filter_filter]
  simp only [Bool.and_self]
  rw [List.filter_map, hfires]
  rfl

/-- A rule that fires adds its constant. -/
theorem additionsOf_block (hi : i < p.count) :
    p.block.additionsOf p.store (finite (m i), i) = .ok [(p.output.id, p.activated m i)] := by
  have hmaps := p.maps i hi
  have hrule : p.block.rules[i]? = some (p.rule i) := by
    rw [p.rules_eq, List.getElem?_map, List.getElem?_range hi]
    rfl
  have hterm : p.store.term? ⟨⟨p.output.id, p.output.name.asText, true⟩, [],
      some ⟨(p.constant i).id, (p.constant i).name.asText⟩⟩ = some (p.constant i) := by
    have hconstant : p.output.termById? (p.constant i).id = some (p.constant i) := by
      rw [Variable.termById?, p.output_terms]
      exact find?_map_range p.id_constant hi _
    rw [Variables.term?, output?_store]
    exact hconstant
  have henabled : p.store.isEnabled ⟨p.output.id, p.output.name.asText, true⟩ = true := by
    simp [Variables.isEnabled, output?_store, OutputVariable.clearFuzzyOutput, p.output_enabled]
  simp only [RuleBlock.additionsOf, hrule, hmaps.conclusions, Rule.additions_cons, Variables.additions, henabled,
    hterm, p.implication]
  rfl

/-- What the rules that fire add together. -/
theorem allAdditions_block {is : List Nat} (his : ∀ i ∈ is, i < p.count) :
    p.block.allAdditions p.store (is.map fun i => (finite (m i), i)) =
      .ok (is.map fun i => (p.output.id, p.activated m i)) := by
  induction is with
  | nil => rfl
  | cons i is ih =>
    obtain ⟨hi, his⟩ := List.forall_mem_cons.1 his
    rw [List.map_cons, RuleBlock.allAdditions_cons, additionsOf_block hi, ok_bind, ih his, ok_bind]
    rfl

/-! ### The output -/

/-- The mean of constants, when there are some and their weights do not vanish. -/
theorem rawValue_output {around : Option (Surroundings Exact)} {v : OutputVariable Exact} {is : List Nat}
    (henabled : v.enabled = true) (haggregation : v.fuzzyOutput.aggregation = none)
    (hdefuzzifier : v.defuzzifier = p.output.defuzzifier) (hterms : v.fuzzyOutput.terms = is.map (p.activated m))
    (his : ∀ i ∈ is, i < p.count) (hne : is ≠ []) (hweights : epsilon ≤ (is.map m).sum) :
    v.rawValue around = .ok (finite ((is.map fun i => m i * p.level i).sum / (is.map m).sum)) := by
  have hactive : v.isActive = true := by
    rw [OutputVariable.isActive, henabled, Aggregated.isEmpty, hterms, List.isEmpty_map,
      List.isEmpty_eq_false_iff.2 hne]
    rfl
  have hweighs : ∀ i ∈ is, (p.activated m i).Weighs around (m i) (p.level i) := fun i hi =>
    ⟨rfl, .inl (p.body_constant i (his i hi)), .inl rfl⟩
  obtain ⟨type, htype, h⟩ : ∃ type, type ≠ .tsukamoto ∧ p.output.defuzzifier = some (.weighted .average type) :=
    p.defuzzifier.elim (fun h => ⟨.automatic, by decide, h⟩) fun h => ⟨.takagiSugeno, by decide, h⟩
  rw [OutputVariable.rawValue_of_active hactive (hdefuzzifier.trans h)]
  exact average_map htype haggregation hterms hne hweighs hweights _ _

/-! ### Cycles -/

/-- A single output takes over the value that it settles. -/
theorem value_defuzzifyOutputs {vs : Variables Exact} {v : OutputVariable Exact} {x : Exact}
    (houtputs : vs.outputs = [v]) (hraw : v.prepare.rawValue (Engine.surroundingsAt vs [] v []) = .ok x) :
    (Engine.defuzzifyOutputs vs).error = none ∧
      (Engine.defuzzifyOutputs vs).state.outputs.map (fun v => v.value) = [v.prepare.settleValue x] := by
  have hdefuzzify := OutputVariable.defuzzify_of_ok hraw
  have hok : (v.defuzzify (Engine.surroundingsAt vs [] v [])).2 = .ok () := congrArg Prod.snd hdefuzzify
  obtain ⟨herror, hstate⟩ := Engine.defuzzifyFrom_cons_of_ok hok
  rw [Engine.defuzzifyOutputs, houtputs, herror, hstate, hdefuzzify]
  exact ⟨rfl, rfl⟩

/-- The output, with what the rules that fire add to it. -/
theorem outputs_receive (is : List Nat) :
    (p.store.receive (is.map fun i => (p.output.id, p.activated m i))).outputs =
      [p.output.clearFuzzyOutput.receive (is.map (p.activated m))] := by
  have htrail : Trail.on (is.map fun i => (p.output.id, p.activated m i)) p.output.id = is.map (p.activated m) := by
    simp [Trail.on, List.filter_map, Function.comp_def]
  rw [Variables.receive, outputs_store, List.map_singleton]
  show [p.output.clearFuzzyOutput.receive (Trail.on _ p.output.id)] = _
  rw [htrail]

/-- A cycle is completed when the output is defuzzified. -/
theorem yields_of_defuzzify {t : Trail Exact} {block : RuleBlock Exact} {y : ℝ}
    (heffect : p.block.effect p.store = .ok (t, block))
    (hdone : (Engine.defuzzifyOutputs (p.store.receive t)).error = none)
    (hvalue : (Engine.defuzzifyOutputs (p.store.receive t)).state.outputs.map (fun v => v.value) = [finite y]) :
    p.Yields y := by
  have heffects : Engine.effects p.store p.engine.blocks = .ok (t, [block]) := by
    rw [p.blocks_eq, Engine.effects, heffect]
    show Except.ok (t ++ [], [block]) = _
    rw [List.append_nil]
  obtain ⟨herror, hstore⟩ := Engine.process_of_effects heffects
  refine ⟨herror.trans hdone, ?_⟩
  show p.engine.process.state.store.outputs.map _ = _
  rw [hstore]
  exact hvalue

/-- The output takes the mean over that the rules give. Each of them weighs as much as the input belongs to its
triangle. -/
theorem yields_mean {x : ℝ} (hx : p.input.value = finite x)
    (hm : ∀ i < p.count, (p.shape i).degree 1.0 (finite x) = .ok (finite (m i)))
    (hfiring : ∃ i < p.count, epsilon ≤ m i) :
    p.Yields ((∑ i ∈ Finset.range p.count with epsilon ≤ m i, m i * p.level i) /
      ∑ i ∈ Finset.range p.count with epsilon ≤ m i, m i) := by
  have hmember : ∀ i ∈ p.firing m, i < p.count ∧ epsilon ≤ m i := by
    intro i hi
    obtain ⟨hrange, hfires⟩ := List.mem_filter.1 hi
    exact ⟨List.mem_range.1 hrange, of_decide_eq_true hfires⟩
  have hne : p.firing m ≠ [] := by
    obtain ⟨i, hi, hfires⟩ := hfiring
    exact List.ne_nil_of_mem (List.mem_filter.2 ⟨List.mem_range.2 hi, decide_eq_true hfires⟩)
  have hweights : epsilon ≤ ((p.firing m).map m).sum := epsilon_le_sum hne fun i hi => (hmember i hi).2
  have hmembership : ∀ i < p.count,
      (p.triangle i).membership (some p.store.surroundings) p.input.value = .ok (finite (m i)) := by
    intro i hi
    rw [hx, membership_triangle hi, hm i hi]
    rfl
  have heffect : p.block.effect p.store =
      .ok ((p.firing m).map fun i => (p.output.id, p.activated m i),
        p.block.settled ((List.range p.count).map fun i => (finite (m i), i))) := by
    rw [RuleBlock.effect, if_pos p.block_enabled, degrees_block hmembership, ok_bind, fired_block,
      allAdditions_block fun i hi => (hmember i hi).1]
    rfl
  -- the sums over the rules that fire, as sums of finite sets
  have hsum : ∀ f : Nat → ℝ, ((p.firing m).map f).sum = ∑ i ∈ Finset.range p.count with epsilon ≤ m i, f i := by
    intro f
    rfl
  obtain ⟨hdone, hvalue⟩ := value_defuzzifyOutputs (outputs_receive (p.firing m))
    (rawValue_output p.output_enabled p.aggregation rfl (List.nil_append _) (fun i hi => (hmember i hi).1) hne
      hweights)
  refine yields_of_defuzzify heffect hdone (hvalue.trans ?_)
  rw [hsum, hsum, OutputVariable.settleValue]
  show [if p.output.lockValueInRange && _ then _ else _] = _
  rw [p.output_unlocked]
  rfl

/-! ### An engine for every row of knots -/

/-- The term on the input for a knot. -/
noncomputable def triangleOver (p : Partition) (i : Nat) : Term Exact :=
  ⟨i, .text ("near" ++ toString i), .shape (p.shape i) 1.0⟩

/-- The term on the output for a knot. -/
noncomputable def constantOf (f : Nat → ℝ) (i : Nat) : Term Exact :=
  ⟨i, .text ("level" ++ toString i), .constant (finite (f i))⟩

/-- The rule for a knot. -/
noncomputable def ruleOf (i : Nat) : Rule Exact :=
  { Rule.ofText ("if x is near" ++ toString i ++ " then y is level" ++ toString i) with
    antecedent := some (.proposition ⟨⟨0, "x", false⟩, [], some ⟨i, "near" ++ toString i⟩⟩)
    conclusions := [⟨⟨1, "y", true⟩, [], some ⟨i, "level" ++ toString i⟩⟩] }

noncomputable def inputOver (p : Partition) (x : ℝ) : Variable Exact :=
  { Variable.empty (.text "x") Scalar.nan Scalar.nan with
    value := finite x
    terms := (List.range p.count).map (triangleOver p) }

noncomputable def outputOf (p : Partition) (f : Nat → ℝ) : OutputVariable Exact :=
  { OutputVariable.empty (.text "y") Scalar.nan Scalar.nan with
    id := 1
    terms := (List.range p.count).map (constantOf f)
    defuzzifier := some (.weighted .average .automatic) }

noncomputable def blockOver (p : Partition) : RuleBlock Exact :=
  ⟨.text "rules", true, none, none, none, some .general, (List.range p.count).map ruleOf⟩

/-- An engine over knots, fresh but for the value of its input. -/
noncomputable def plain (p : Partition) (f : Nat → ℝ) (x : ℝ) : Interpolator where
  toPartition := p
  level := f
  engine := ⟨.text "knots", ⟨[inputOver p x], [outputOf p f], [], [], 2⟩, [blockOver p], .idle⟩
  input := inputOver p x
  output := outputOf p f
  block := blockOver p
  triangle := triangleOver p
  constant := constantOf f
  rule := ruleOf
  inputs_eq := rfl
  outputs_eq := rfl
  blocks_eq := rfl
  input_enabled := rfl
  input_terms := rfl
  body_triangle _ _ := rfl
  id_triangle _ _ _ _ h := h
  output_enabled := rfl
  output_unlocked := rfl
  output_terms := rfl
  body_constant _ _ := rfl
  id_constant _ _ _ _ h := h
  aggregation := rfl
  defuzzifier := .inl rfl
  block_enabled := rfl
  implication := rfl
  activation := rfl
  rules_eq := rfl
  maps _ _ := ⟨rfl, rfl, rfl, rfl⟩

/-! ## §4 Interpolation -/

/-- Where the shares of the triangles are degrees that fire a rule or are zero, the mean is the sum of the levels
of both knots, each times its share. -/
theorem yields_shares {x : ℝ} (hx : p.input.value = finite x) (hi : i + 1 < p.count) (hclear : p.Clear i x)
    (hleft : p.share i x i = 0 ∨ epsilon ≤ p.share i x i)
    (hright : p.share i x (i + 1) = 0 ∨ epsilon ≤ p.share i x (i + 1)) :
    p.Yields (p.share i x i * p.level i + p.share i x (i + 1) * p.level (i + 1)) := by
  have hunit := p.share_add_share (x := x) hi
  have hothers : ∀ j, j ≠ i ∧ j ≠ i + 1 → p.share i x j = 0 := by
    rintro j ⟨hj, hj'⟩
    rw [Partition.share, if_neg hj, if_neg hj']
  have hfires : ∀ j, p.share i x j = 0 ∨ epsilon ≤ p.share i x j := by
    intro j
    by_cases hj : j = i
    · exact hj ▸ hleft
    by_cases hj' : j = i + 1
    · exact hj' ▸ hright
    · exact .inl (hothers j ⟨hj, hj'⟩)
  -- rules that do not fire would add nothing to the sums
  have hsum : ∀ g : Nat → ℝ, ∑ j ∈ Finset.range p.count with epsilon ≤ p.share i x j, p.share i x j * g j =
      p.share i x i * g i + p.share i x (i + 1) * g (i + 1) := by
    intro g
    rw [Finset.sum_filter_of_ne fun j _ hne => (hfires j).resolve_left (left_ne_zero_of_mul hne)]
    refine Finset.sum_eq_add i (i + 1) (by omega) (fun j _ hj => ?_) (fun h => ?_) (fun h => ?_)
    · rw [hothers j hj, zero_mul]
    · exact absurd (Finset.mem_range.2 (by omega)) h
    · exact absurd (Finset.mem_range.2 hi) h
  have hfiring : ∃ j < p.count, epsilon ≤ p.share i x j := by
    obtain hzero | hfire := hleft
    · refine ⟨i + 1, hi, hright.resolve_left fun h => ?_⟩
      rw [hzero, h, zero_add] at hunit
      exact zero_ne_one hunit
    · exact ⟨i, by omega, hfire⟩
  have hmean := p.yields_mean hx (fun j hj => Partition.degree_shape hi hclear hj) hfiring
  have hweights := hsum fun _ => 1
  simp only [mul_one] at hweights
  rwa [hsum, hweights, hunit, div_one] at hmean

/-- Linear interpolation. On a knot the output has the level of the knot. Between two knots, off the margins around
them where comparison takes them for equal, and where both rules fire, it has the value on the line from the one
level to the other. -/
theorem interpolates (p : Interpolator) :
    (∀ i < p.count, p.input.value = finite (p.knot i) → p.Yields (p.level i)) ∧
    ∀ i x a b, i + 1 < p.count → p.input.value = finite x → p.knot i + epsilon ≤ x → x + epsilon ≤ p.knot (i + 1) →
      (p.triangle i).membership p.engine.surroundings (finite x) = .ok (finite a) → epsilon ≤ a →
      (p.triangle (i + 1)).membership p.engine.surroundings (finite x) = .ok (finite b) → epsilon ≤ b →
      p.Yields (((p.knot (i + 1) - x) * p.level i + (x - p.knot i) * p.level (i + 1)) /
        (p.knot (i + 1) - p.knot i)) := by
  have hpos := epsilon_pos
  constructor
  · intro i hi hx
    -- a knot is the left or the right end of a stretch
    by_cases hnext : i + 1 < p.count
    · have hzero : p.share i (p.knot i) (i + 1) = 0 := by
        rw [Partition.share, if_neg (by omega), if_pos rfl, sub_self, zero_div]
      have hone := p.share_add_share (x := p.knot i) hnext
      rw [hzero, add_zero] at hone
      have hyields := yields_shares hx hnext (Partition.clear_left hnext)
        (.inr (by linarith [epsilon_lt_half])) (.inl hzero)
      rwa [hone, hzero, one_mul, zero_mul, add_zero] at hyields
    · obtain ⟨j, rfl⟩ : ∃ j, i = j + 1 := ⟨i - 1, by have := p.two_le; omega⟩
      have hzero : p.share j (p.knot (j + 1)) j = 0 := by
        rw [Partition.share, if_pos rfl, sub_self, zero_div]
      have hone := p.share_add_share (x := p.knot (j + 1)) hi
      rw [hzero, zero_add] at hone
      have hyields := yields_shares hx hi (Partition.clear_right hi)
        (.inl hzero) (.inr (by linarith [epsilon_lt_half]))
      rwa [hone, hzero, one_mul, zero_mul, zero_add] at hyields
  · intro i x a b hnext hx hleft hright ha hafires hb hbfires
    have hclear : p.Clear i x := ⟨.inr hleft, .inr hright⟩
    have hi : i < p.count := by omega
    rw [membership_triangle hi, Partition.degree_shape hnext hclear hi] at ha
    rw [membership_triangle hnext, Partition.degree_shape hnext hclear hnext] at hb
    obtain rfl : p.share i x i = a := finite_inj.1 (Except.ok.inj ha)
    obtain rfl : p.share i x (i + 1) = b := finite_inj.1 (Except.ok.inj hb)
    have hyields := yields_shares hx hnext hclear (.inr hafires) (.inr hbfires)
    rw [Partition.share, if_pos rfl, Partition.share, if_neg (by omega), if_pos rfl] at hyields
    rwa [add_div, mul_div_right_comm, mul_div_right_comm]

/-- Three knots. The first triangle never falls to its left. -/
noncomputable def threeKnots : Partition where
  count := 3
  two_le := by decide
  knot i := i
  spaced i _ := by
    push_cast
    linarith [epsilon_lt_half]
  first := negInf
  first_le := .inl trivial
  last := finite (3 : ℕ)
  le_last := by
    rw [finite_le_finite]
    push_cast
    linarith [epsilon_lt_half]

/-- The squares of the knots, at the given input. -/
noncomputable def squares (x : ℝ) : Interpolator := plain threeKnots (fun i => i ^ 2) x

/-- The square on the last knot, and a value on the line to it. -/
theorem interpolates_squares : (squares 2).Yields 4 ∧ (squares (3 / 2)).Yields (5 / 2) := by
  have hsmall := epsilon_lt_half
  have hone : threeKnots.knot 1 = 1 := Nat.cast_one
  have htwo : threeKnots.knot (1 + 1) = 2 := by norm_num [threeKnots]
  constructor
  · have hinput : (squares 2).input.value = finite ((squares 2).knot 2) := congrArg finite htwo.symm
    have hlevel : (squares 2).level 2 = 4 := by norm_num [squares, plain]
    have hknot := (interpolates (squares 2)).1 2 (by decide) hinput
    rwa [hlevel] at hknot
  · have hleft : threeKnots.knot 1 + epsilon ≤ 3 / 2 := by linarith
    have hright : 3 / 2 + epsilon ≤ threeKnots.knot (1 + 1) := by linarith
    -- both triangles have the degree one half there
    have hshare : ∀ j ∈ [1, 2], threeKnots.share 1 (3 / 2) j = 1 / 2 := by
      norm_num [Partition.share, hone, htwo]
    have hmembership : ∀ j ∈ [1, 2], ((squares (3 / 2)).triangle j).membership (squares (3 / 2)).engine.surroundings
        (finite (3 / 2)) = .ok (finite (1 / 2)) := by
      intro j hj
      have hcount : j < (squares (3 / 2)).count := by
        obtain rfl | rfl : j = 1 ∨ j = 2 := by simpa using hj
        · show 1 < 3
          omega
        · show 2 < 3
          omega
      have hdegree := Partition.degree_shape (p := threeKnots) (by decide) ⟨.inr hleft, .inr hright⟩ hcount
      rw [membership_triangle hcount, ← hshare j hj]
      exact congrArg liftM hdegree
    have hline := (interpolates (squares (3 / 2))).2 1 (3 / 2) (1 / 2) (1 / 2) (by decide) rfl hleft hright
      (hmembership 1 (by simp)) hsmall.le (hmembership 2 (by simp)) hsmall.le
    have hvalue : ((threeKnots.knot (1 + 1) - 3 / 2) * (1 : ℕ) ^ 2 + (3 / 2 - threeKnots.knot 1) * (2 : ℕ) ^ 2) /
        (threeKnots.knot (1 + 1) - threeKnots.knot 1) = (5 / 2 : ℝ) := by
      rw [hone, htwo]
      norm_num
    rwa [← hvalue]

end Interpolator

end FuzzyInference
