import FuzzyInference.Proofs.Exact.Scalars
import FuzzyInference.Proofs.References
import FuzzyInference.Proofs.Totals

/-!
# Which rules fire

An activation method passes over the degrees of a block, counts, compares and divides, and every rule that it
chooses tests its degree once more before it fires. This module says which rules fire in the end without any
pass: a rule fires by its own degree, under a method that counts also by the number of qualifying rules that
are declared on one side of it, and under a proportional method by its quotient. Degrees may be any
floating-point numbers, `nan` among them.

The plan of this module:

* the first items of a list that pass a test;
* what each method chooses, as a relation between the degrees and the rules that fire;
* quotients in exact arithmetic, which add up to one;
* blocks, of which exactly the chosen rules fire, each once.

## Main statements

* `Activation.chooses_select`: the passes of the methods choose what the relation says
* `Activation.sumOfDegrees_quotients`: quotients of real numbers
* `RuleBlock.run_fires_chosen`: blocks
-/

namespace FuzzyInference

open Scalar Checked

/-! ## §1 First items -/

section FirstItems

variable {β : Type} {before : β → β → Prop} [DecidableRel before] {p : β → Bool}

/-- No item of a list in order is before its head. -/
theorem countP_before_head (hasymm : ∀ x y, before x y → ¬before y x) {y : β} {ys : List β}
    (h : (y :: ys).Pairwise before) : ((y :: ys).countP fun z => p z && before z y) = 0 := by
  rw [List.countP_eq_zero]
  intro z hz
  have hnot : ¬before z y := by
    obtain rfl | hz := List.mem_cons.1 hz
    · intro hself
      exact hasymm z z hself hself
    · exact hasymm y z ((List.pairwise_cons.1 h).1 z hz)
  simp [hnot]

/-- The head of a list in order is before each of the other items. -/
theorem countP_before_tail {x y : β} {ys : List β} (h : (y :: ys).Pairwise before) (hx : x ∈ ys) :
    ((y :: ys).countP fun z => p z && before z x) =
      (ys.countP fun z => p z && before z x) + if p y then 1 else 0 := by
  have hbefore : before y x := (List.pairwise_cons.1 h).1 x hx
  rw [List.countP_cons]
  simp [hbefore]

/-- Of the items that pass a test, the first few are those with fewer such items before them. -/
theorem mem_take_filter_iff (hasymm : ∀ x y, before x y → ¬before y x) {l : List β} (h : l.Pairwise before)
    {n : Nat} {x : β} :
    x ∈ (l.filter p).take n ↔ x ∈ l ∧ p x = true ∧ (l.countP fun y => p y && before y x) < n := by
  induction l generalizing n with
  | nil => simp
  | cons y ys ih =>
    have hys : ys.Pairwise before := (List.pairwise_cons.1 h).2
    cases hp : p y with
    | false =>
      -- an item that fails is neither taken nor counted
      rw [List.filter_cons_of_neg (by simp [hp]), ih hys, List.mem_cons]
      constructor
      · rintro ⟨hmem, hpx, hcount⟩
        refine ⟨.inr hmem, hpx, ?_⟩
        rw [countP_before_tail h hmem, hp]
        exact hcount
      · rintro ⟨rfl | hmem, hpx, hcount⟩
        · rw [hp] at hpx
          cases hpx
        · rw [countP_before_tail h hmem, hp] at hcount
          exact ⟨hmem, hpx, hcount⟩
    | true =>
      rw [List.filter_cons_of_pos hp]
      cases n with
      | zero => simp
      | succ n =>
        -- one that passes takes one of the places, for itself and before all others
        rw [List.take_succ_cons, List.mem_cons, List.mem_cons, ih hys]
        constructor
        · rintro (rfl | ⟨hmem, hpx, hcount⟩)
          · refine ⟨.inl rfl, hp, ?_⟩
            rw [countP_before_head hasymm h]
            exact Nat.succ_pos n
          · refine ⟨.inr hmem, hpx, ?_⟩
            rw [countP_before_tail h hmem, hp]
            exact Nat.succ_lt_succ hcount
        · rintro ⟨rfl | hmem, hpx, hcount⟩
          · exact .inl rfl
          · rw [countP_before_tail h hmem, hp] at hcount
            exact .inr ⟨hmem, hpx, Nat.lt_of_succ_lt_succ hcount⟩

end FirstItems

/-! ## §2 Methods -/

namespace Activation

section Relation

variable {α : Type}

/-- Rules in the order in which they are declared. -/
def IsAscending (ps : List (α × Nat)) : Prop := ps.Pairwise fun p q => p.2 < q.2

/-- Rules from the last declared one backwards. -/
def IsDescending (ps : List (α × Nat)) : Prop := ps.Pairwise fun p q => q.2 < p.2

theorem IsAscending.filter {ps : List (α × Nat)} (h : IsAscending ps) (p : α × Nat → Bool) :
    IsAscending (ps.filter p) := List.Pairwise.sublist List.filter_sublist h

variable [Scalar α]

/-- What a method that counts asks of a degree. -/
def qualifies (bar d : α) : Bool := above d 0.0 && atLeast d bar

/-- The number of qualifying rules that are declared before the rule of an index. -/
def qualifiedBefore (bar : α) (ds : List (α × Nat)) (j : Nat) : Nat :=
  ds.countP fun p => qualifies bar p.1 && p.2 < j

/-- The number of qualifying rules that are declared after the rule of an index. -/
def qualifiedAfter (bar : α) (ds : List (α × Nat)) (j : Nat) : Nat :=
  ds.countP fun p => qualifies bar p.1 && j < p.2

/-- So many rules as are asked for, or all that qualify, if these are fewer. -/
def IsCounted (count : Int) (bar : α) (ds ps : List (α × Nat)) : Prop :=
  (ps.length : Int) = min (max count 0) (ds.countP fun p => qualifies bar p.1)

/-- Given the degrees `ds`, a method fires the rules `ps` in this order, each with the degree that is listed with
it. Of the methods that sort the rules this says only that they fire rules of positive degree. -/
def Chooses (ds ps : List (α × Nat)) : Activation α → Prop
  | general => IsAscending ps ∧ ∀ d j, (d, j) ∈ ps ↔ (d, j) ∈ ds ∧ above d 0.0 = true
  | threshold comparison value => IsAscending ps ∧
      ∀ d j, (d, j) ∈ ps ↔ (d, j) ∈ ds ∧ above d 0.0 = true ∧ comparison.holds d value = true
  | first count bar => IsAscending ps ∧ IsCounted count bar ds ps ∧
      ∀ d j, (d, j) ∈ ps ↔ (d, j) ∈ ds ∧ qualifies bar d = true ∧ (qualifiedBefore bar ds j : Int) < count
  | last count bar => IsDescending ps ∧ IsCounted count bar ds ps ∧
      ∀ d j, (d, j) ∈ ps ↔ (d, j) ∈ ds ∧ qualifies bar d = true ∧ (qualifiedAfter bar ds j : Int) < count
  | proportional => IsAscending ps ∧ ∀ c j, (c, j) ∈ ps ↔ (c, j) ∈ quotients ds ∧ above c 0.0 = true
  | highest _ | lowest _ => ∀ d j, (d, j) ∈ ps → (d, j) ∈ ds ∧ above d 0.0 = true

/-- Quotients belong to rules in the order of the degrees. -/
theorem IsAscending.quotients {ds : List (α × Nat)} (h : IsAscending ds) : IsAscending (quotients ds) :=
  List.pairwise_map.2 (h.filter fires)

/-! ### Methods that count -/

theorem select_first (count : Int) (bar : α) (ds : List (α × Nat)) :
    (first count bar).select ds = (ds.filter fun p => qualifies bar p.1).take count.toNat := rfl

theorem select_last (count : Int) (bar : α) (ds : List (α × Nat)) :
    (last count bar).select ds = (ds.reverse.filter fun p => qualifies bar p.1).take count.toNat := rfl

theorem fires_of_qualifies {bar : α} {p : α × Nat} (h : qualifies bar p.1 = true) : fires p = true :=
  (Bool.and_eq_true_iff.1 h).1

/-- What a counting method takes consists of rules that fire. -/
theorem filter_fires_take (count : Nat) (bar : α) (ds : List (α × Nat)) :
    ((ds.filter fun p => qualifies bar p.1).take count).filter fires =
      (ds.filter fun p => qualifies bar p.1).take count := by
  rw [List.filter_eq_self]
  intro p hp
  have hqualifies : qualifies bar p.1 = true := (List.mem_filter.1 (List.mem_of_mem_take hp)).2
  exact fires_of_qualifies hqualifies

theorem isCounted_take (count : Int) (bar : α) (ds : List (α × Nat)) :
    IsCounted count bar ds ((ds.filter fun p => qualifies bar p.1).take count.toNat) := by
  unfold IsCounted
  rw [List.length_take, ← List.countP_eq_length_filter]
  omega

/-- A method that takes the first qualifying rules. -/
theorem chooses_first {count : Int} {bar : α} {ds : List (α × Nat)} (h : IsAscending ds) :
    (first count bar).Chooses ds (((first count bar).select ds).filter fires) := by
  rw [select_first, filter_fires_take]
  refine ⟨List.Pairwise.sublist (List.take_sublist _ _) (h.filter _), isCounted_take count bar ds, fun d j => ?_⟩
  rw [mem_take_filter_iff (fun p q hpq => Nat.not_lt.2 hpq.le) h]
  exact and_congr_right fun _ => and_congr_right fun _ => Int.lt_toNat

/-- A method that takes the last qualifying rules, which are the first ones of the reversed list. -/
theorem chooses_last {count : Int} {bar : α} {ds : List (α × Nat)} (h : IsAscending ds) :
    (last count bar).Chooses ds (((last count bar).select ds).filter fires) := by
  have hreverse : IsDescending ds.reverse := List.pairwise_reverse.2 h
  rw [select_last, filter_fires_take]
  refine ⟨List.Pairwise.sublist ((List.take_sublist _ _).trans List.filter_sublist) hreverse, ?_, fun d j => ?_⟩
  · have hcounted := isCounted_take count bar ds.reverse
    unfold IsCounted at hcounted ⊢
    rwa [List.countP_reverse] at hcounted
  · rw [mem_take_filter_iff (fun p q hpq => Nat.not_lt.2 hpq.le) hreverse, List.mem_reverse, List.countP_reverse]
    exact and_congr_right fun _ => and_congr_right fun _ => Int.lt_toNat

end Relation

/-! ### Methods that do not count -/

variable {ds : List (Float × Nat)}

theorem select_general (ds : List (Float × Nat)) : (general : Activation Float).select ds = ds.filter fires := rfl

theorem select_threshold (comparison : Comparison) (value : Float) (ds : List (Float × Nat)) :
    (threshold comparison value).select ds = ds.filter fun p => !isNaN p.1 && comparison.holds p.1 value := rfl

theorem chooses_general (h : IsAscending ds) :
    (general : Activation Float).Chooses ds ((general.select ds).filter fires) := by
  rw [select_general, List.filter_filter]
  refine ⟨h.filter _, fun d j => ?_⟩
  simp [fires]

/-- A degree that is above zero is a number, so that only its comparison with the value matters. -/
theorem chooses_threshold {comparison : Comparison} {value : Float} (h : IsAscending ds) :
    (threshold comparison value).Chooses ds (((threshold comparison value).select ds).filter fires) := by
  rw [select_threshold]
  refine ⟨(h.filter _).filter _, fun d j => ?_⟩
  have hnumber : above d 0.0 = true → isNaN d = false := Float.isNaN_eq_false_of_above
  simp only [List.mem_filter, fires, Bool.and_eq_true, Bool.not_eq_true']
  constructor
  · rintro ⟨⟨hmem, -, hholds⟩, habove⟩
    exact ⟨hmem, habove, hholds⟩
  · rintro ⟨hmem, habove, hholds⟩
    exact ⟨⟨hmem, hnumber habove, hholds⟩, habove⟩

theorem chooses_proportional (h : IsAscending ds) :
    (proportional : Activation Float).Chooses ds ((proportional.select ds).filter fires) := by
  rw [select_proportional_of_float]
  refine ⟨h.quotients.filter _, fun c j => ?_⟩
  simp [fires]

/-- Cutting and sorting let no rule in that was left out before. -/
theorem mem_of_mem_takeSlice_sortByKey {α ι : Type} [Scalar α] {count : Int} {key : α × ι → α}
    {ps : List (α × ι)} {p : α × ι} (h : p ∈ takeSlice count (sortByKey key ps)) : p ∈ ps :=
  (sortByKey_perm key ps).subset (List.mem_of_mem_take h)

/-- The passes of the methods over the degrees choose what the relation says. -/
theorem chooses_select (m : Activation Float) (h : IsAscending ds) :
    m.Chooses ds ((m.select ds).filter fires) := by
  cases m with
  | general => exact chooses_general h
  | first count bar => exact chooses_first h
  | last count bar => exact chooses_last h
  | highest count | lowest count =>
    intro d j hmem
    exact List.mem_filter.1 (mem_of_mem_takeSlice_sortByKey (List.mem_filter.1 hmem).1)
  | threshold comparison value => exact chooses_threshold h
  | proportional => exact chooses_proportional h

/-! ## §3 Quotients in exact arithmetic -/

/-- Real numbers as degrees. -/
def ofReals {ι : Type} (xs : List (ℝ × ι)) : List (Exact × ι) := xs.map fun p => (.finite p.1, p.2)

section Exact

variable {ι : Type}

/-- The numbers that exceed zero by the tolerance at least. -/
noncomputable def exceeding (xs : List (ℝ × ι)) : List (ℝ × ι) := xs.filter fun p => Exact.epsilon ≤ p.1

/-- The degrees above zero are those. -/
theorem filter_fires_ofReals (xs : List (ℝ × ι)) : (ofReals xs).filter fires = ofReals (exceeding xs) := by
  unfold ofReals exceeding
  rw [List.filter_map]
  congr 1
  apply List.filter_congr
  intro p _
  simp [fires]

theorem sumOfDegrees_ofReals (xs : List (ℝ × ι)) :
    sumOfDegrees (ofReals xs) = .finite (xs.map Prod.fst).sum := by
  -- the sum so far is a real number, to which the rest is added
  have hsum : ∀ acc : ℝ, (ofReals xs).foldl (fun acc p => acc + p.1) (.finite acc) =
      .finite (acc + (xs.map Prod.fst).sum) := by
    induction xs with
    | nil => simp [ofReals]
    | cons p xs ih =>
      intro acc
      have hcons : ofReals (p :: xs) = (.finite p.1, p.2) :: ofReals xs := rfl
      rw [hcons, List.foldl_cons, Exact.finite_add, ih, List.map_cons, List.sum_cons, add_assoc]
  unfold sumOfDegrees
  rw [Exact.literal_zero, hsum, zero_add]

/-- The total is positive if any degree is above zero. -/
theorem sum_exceeding_pos {xs : List (ℝ × ι)} (h : ∃ p ∈ ofReals xs, fires p = true) :
    0 < ((exceeding xs).map Prod.fst).sum := by
  apply List.sum_pos
  · intro x hx
    obtain ⟨p, hp, rfl⟩ := List.mem_map.1 hx
    exact Exact.epsilon_pos.trans_le (of_decide_eq_true (List.mem_filter.1 hp).2)
  · obtain ⟨p, hp, hfires⟩ := h
    have hmem : p ∈ ofReals (exceeding xs) := by
      rw [← filter_fires_ofReals]
      exact List.mem_filter.2 ⟨hp, hfires⟩
    intro hnil
    rw [List.map_eq_nil_iff.1 hnil] at hmem
    cases hmem

/-- Where there is a total, the quotients are those of real numbers. -/
theorem quotients_ofReals {xs : List (ℝ × ι)} {total : ℝ} (htotal : ((exceeding xs).map Prod.fst).sum = total)
    (hne : total ≠ 0) : quotients (ofReals xs) = ofReals ((exceeding xs).map fun p => (p.1 / total, p.2)) := by
  unfold quotients
  rw [filter_fires_ofReals, sumOfDegrees_ofReals, htotal]
  unfold ofReals
  rw [List.map_map, List.map_map]
  apply List.map_congr_left
  intro p _
  simp [hne]

/-- In exact arithmetic the quotients add up to one, if there are any. -/
theorem sumOfDegrees_quotients {xs : List (ℝ × ι)} (h : ∃ p ∈ ofReals xs, fires p = true) :
    sumOfDegrees (quotients (ofReals xs)) = .finite 1 := by
  generalize htotal : ((exceeding xs).map Prod.fst).sum = total
  have hne : total ≠ 0 := htotal ▸ (sum_exceeding_pos h).ne'
  have hscaled : ((exceeding xs).map fun p => p.1 / total).sum = 1 :=
    calc ((exceeding xs).map fun p => p.1 / total).sum
        = ((exceeding xs).map Prod.fst).sum / total := by
          simp only [div_eq_mul_inv, List.sum_map_mul_right]
      _ = 1 := by rw [htotal, div_self hne]
  rw [quotients_ofReals htotal hne, sumOfDegrees_ofReals, List.map_map]
  exact congrArg Exact.finite hscaled

end Exact

end Activation

/-! ## §4 Blocks -/

namespace RuleBlock

section Effects

variable {α : Type} [Scalar α]

/-- Given the degrees `ds`, exactly the rules `ps` fire in a block, each once, in this order. -/
structure FiresExactly (vs : Variables α) (b : RuleBlock α) (ds ps : List (α × Nat)) (vs' : Variables α)
    (b' : RuleBlock α) : Prop where
  /-- No rule fires twice. -/
  once : (ps.map Prod.snd).Nodup
  /-- What the rules conclude is added in this order, and nothing else is. -/
  adds : ∃ t, b.allAdditions vs ps = .ok t ∧ vs' = vs.receive t
  /-- A rule that takes part ends up triggered if it fires and untriggered if it does not, with the degree that
  the method leaves it. -/
  marks : ∀ (j : Nat) (r : Rule α), b.rules[j]? = some r → isActive r = true → ∃ d, (d, j) ∈ ds ∧
    b'.rules[j]? = some { r with degree := b.method.share ds d, triggered := decide (j ∈ ps.map Prod.snd) }
  /-- A rule that is disabled or not loaded stays as it is. -/
  leaves : ∀ (j : Nat) (r : Rule α), b.rules[j]? = some r → isActive r = false → b'.rules[j]? = some r
  /-- No rule comes or goes, and nothing else of the block changes. -/
  keeps : b'.rules.length = b.rules.length ∧ b' = { b with rules := b'.rules }

/-- The rules that have a degree are the active ones. -/
theorem mem_indices_iff {vs : Variables α} {b : RuleBlock α} {ds : List (α × Nat)} (h : b.degrees vs = .ok ds)
    (j : Nat) : j ∈ ds.map Prod.snd ↔ b.HasActive j := by
  rw [map_snd_degreesFrom h]
  constructor
  · intro hj
    obtain ⟨⟨r, i⟩, hmem, rfl⟩ := List.mem_map.1 hj
    obtain ⟨hr, hactive⟩ := List.mem_filter.1 hmem
    exact ⟨r, List.mk_mem_zipIdx_iff_getElem?.1 hr, hactive⟩
  · rintro ⟨r, hr, hactive⟩
    refine List.mem_map.2 ⟨(r, j), List.mem_filter.2 ⟨?_, hactive⟩, rfl⟩
    exact List.mk_mem_zipIdx_iff_getElem?.2 hr

theorem firesExactly_run {vs vs' : Variables α} {b b' : RuleBlock α} (h : (b.run vs).value = .ok (vs', b')) :
    ∃ ds, b.degrees vs = .ok ds ∧ b.FiresExactly vs ds (b.fired ds) vs' b' := by
  rw [value_run] at h
  obtain ⟨ds, hds, h⟩ := bind_eq_ok_iff.1 h
  obtain ⟨t, ht, h⟩ := bind_eq_ok_iff.1 h
  cases h
  have hnodup : (ds.map Prod.snd).Nodup := nodup_degreesFrom hds
  refine ⟨ds, hds, ?_, ⟨t, ht, rfl⟩, fun j r hr hactive => ?_, fun j r hr hinactive => ?_, ?_, rfl⟩
  · exact (Activation.nodup_select b.method hnodup).sublist (List.filter_sublist.map Prod.snd)
  · obtain ⟨⟨d, i⟩, hd, rfl⟩ := List.mem_map.1 ((mem_indices_iff hds j).2 ⟨r, hr, hactive⟩)
    have htriggered : ((b.fired ds).any fun p => p.2 == i) = decide (i ∈ (b.fired ds).map Prod.snd) := by
      rw [Bool.eq_iff_iff]
      simp
    refine ⟨d, hd, ?_⟩
    rw [getElem?_settled, hr, Option.map_some, settledRule, (degreeAt_eq_some_iff hnodup).2 hd, ← htriggered]
  · have hnone : degreeAt ds j = none := by
      apply degreeAt_eq_none
      intro hj
      obtain ⟨r', hr', hactive⟩ := (mem_indices_iff hds j).1 hj
      cases hr.symm.trans hr'
      rw [hinactive] at hactive
      cases hactive
    rw [getElem?_settled, hr, Option.map_some, settledRule, hnone]
  · simp [settled]

end Effects

/-- When a block is run to its end, exactly the rules fire that its method chooses, each once and in the order of
the method. None of them has a degree that is `nan`, zero or negative. The quotients among which a proportional
method chooses are those of the degrees above zero, which is why they add up to one in exact arithmetic. -/
theorem run_fires_chosen :
    (∀ (vs vs' : Variables Float) (b b' : RuleBlock Float), (b.run vs).value = .ok (vs', b') →
      ∃ ds ps, b.degrees vs = .ok ds ∧ b.method.Chooses ds ps ∧ b.FiresExactly vs ds ps vs' b' ∧
        ∀ d j, (d, j) ∈ ds → isNaN d = true ∨ d ≤ 0.0 → j ∉ ps.map Prod.snd) ∧
    ∀ xs : List (ℝ × Nat), (∃ p ∈ Activation.ofReals xs, above p.1 0.0 = true) →
      Activation.sumOfDegrees (Activation.quotients (Activation.ofReals xs)) = .finite 1 := by
  refine ⟨fun vs vs' b b' h => ?_, fun xs h => Activation.sumOfDegrees_quotients h⟩
  obtain ⟨ds, hds, hexactly⟩ := firesExactly_run h
  have hascending : Activation.IsAscending ds := List.pairwise_map.1 (pairwise_degreesFrom hds)
  refine ⟨ds, b.fired ds, hds, Activation.chooses_select b.method hascending, hexactly, ?_⟩
  intro d j hd hdegree hj
  obtain ⟨p, hp, rfl⟩ := List.mem_map.1 hj
  obtain ⟨d', hd', habove⟩ := exists_degree_of_mem_fired hp
  -- the rule has one degree
  have hsame : d' = d := by
    have hnodup : (ds.map Prod.snd).Nodup := nodup_degreesFrom hds
    have hat := (degreeAt_eq_some_iff hnodup).2 hd'
    rw [(degreeAt_eq_some_iff hnodup).2 hd] at hat
    exact (Option.some.inj hat).symm
  subst hsame
  obtain hnan | hle := hdegree
  · rw [Float.isNaN_eq_false_of_above habove] at hnan
    cases hnan
  · exact Float.not_lt_of_le hle (Float.above_zero_iff.1 habove).1

/-- Rules `if x is any then y is LOW` of the given weights, which are their degrees. -/
def weighedBlock (m : Activation Float) (weights : List Float) : RuleBlock Float :=
  let b := Engine.relayBlock "weighed" ⟨⟨0, "x", false⟩, [.any], none⟩ (Engine.relayProposition [] 0 "LOW")
  { b with
    activation := some m
    rules := weights.flatMap fun w => b.rules.map fun r => { r with weight := w } }

/-- The last two of five rules whose degree reaches 0.6 fire, and three quotients add up to one. -/
theorem run_fires_chosen_weighed :
    (∃ vs' b', ((weighedBlock (.last 2 0.6) [0.25, 0.75, 0.5, nan, 0.75]).run Engine.relay.store).value =
        .ok (vs', b') ∧
      b'.rules.map Rule.triggered = [false, true, false, false, true] ∧
      ∃ ds ps, (weighedBlock (.last 2 0.6) [0.25, 0.75, 0.5, nan, 0.75]).degrees Engine.relay.store = .ok ds ∧
        (Activation.last 2 0.6).Chooses ds ps ∧
        (weighedBlock (.last 2 0.6) [0.25, 0.75, 0.5, nan, 0.75]).FiresExactly Engine.relay.store ds ps vs' b') ∧
    Activation.sumOfDegrees (Activation.quotients
      (Activation.ofReals [(1 / 4, 0), (3 / 4, 1), (-1, 2), (1 / 2, 3)])) = .finite 1 := by
  obtain ⟨hchosen, hquotients⟩ := run_fires_chosen
  constructor
  · have hdone : ((weighedBlock (.last 2 0.6) [0.25, 0.75, 0.5, nan, 0.75]).run Engine.relay.store).error =
        none := by decide +kernel
    have hvalue := Outcome.value_of_error_eq_none hdone
    obtain ⟨ds, ps, hds, hps, hexactly, -⟩ := hchosen _ _ _ _ hvalue
    exact ⟨_, _, hvalue, by decide +kernel, ds, ps, hds, hps, hexactly⟩
  · apply hquotients
    refine ⟨(.finite (3 / 4), 1), by simp [Activation.ofReals], ?_⟩
    norm_num [Exact.epsilon]

end RuleBlock

end FuzzyInference
