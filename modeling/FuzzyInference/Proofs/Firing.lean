import FuzzyInference.Engine.Cycle
import FuzzyInference.Proofs.Selection
import FuzzyInference.Proofs.Trail

/-!
# What a block does

A block is activated by evaluating all of its active rules and then firing some of them. This module says
what comes of it without the order of reads and writes: the degrees of the active rules, what the rules that
fire add, and what is left of the rules. Whatever a rule adds is computed from the variables as they were
when the block was activated.

The plan of this module:

* the degrees of the active rules, and the first phase;
* what a rule adds when it fires, and the second phase;
* a whole block, and blocks in order.

## Main statements

* `RuleBlock.evaluateFrom_of_degrees`, `RuleBlock.evaluateFrom_error`: the first phase
* `RuleBlock.value_fireAll`: the second phase
* `RuleBlock.value_activate`: a block
* `Engine.value_activateBlocks`: blocks in order
-/

namespace FuzzyInference

open Scalar Checked

variable {α : Type}

namespace RuleBlock

/-! ## §1 Degrees -/

/-- The degree that a list of degrees holds for an index. -/
def degreeAt (ds : List (α × Nat)) (j : Nat) : Option α := (ds.find? fun p => p.2 == j).map Prod.fst

theorem degreeAt_cons (d : α) (n : Nat) (ds : List (α × Nat)) (j : Nat) :
    degreeAt ((d, n) :: ds) j = if n == j then some d else degreeAt ds j := by
  unfold degreeAt
  rw [List.find?_cons]
  cases n == j <;> simp

theorem degreeAt_eq_none {ds : List (α × Nat)} {j : Nat} (h : j ∉ ds.map Prod.snd) :
    degreeAt ds j = none := by
  simp only [degreeAt, Option.map_eq_none_iff, List.find?_eq_none, beq_iff_eq]
  rintro p hp rfl
  exact h (List.mem_map_of_mem hp)

/-- Where no rule has two degrees, the degree of an index is the one in the list. -/
theorem degreeAt_eq_some_iff {ds : List (α × Nat)} (h : (ds.map Prod.snd).Nodup) {d : α} {j : Nat} :
    degreeAt ds j = some d ↔ (d, j) ∈ ds := by
  induction ds with
  | nil => simp [degreeAt]
  | cons p ds ih =>
    obtain ⟨c, n⟩ := p
    obtain ⟨hn, hds⟩ := List.nodup_cons.1 h
    rw [degreeAt_cons]
    cases hnj : n == j with
    | true =>
      have hj : n = j := eq_of_beq hnj
      subst hj
      have hnot : (d, n) ∉ ds := fun hmem => hn (List.mem_map.2 ⟨(d, n), hmem, rfl⟩)
      simp [hnot, eq_comm]
    | false =>
      have hj : j ≠ n := fun e => by simp [e] at hnj
      simp [ih hds, hj]

variable [Scalar α]

/-- The degrees of the active rules of a list, in order, each with the index of the rule; the first rule has
the given index. -/
def degreesFrom (vs : Variables α) (b : RuleBlock α) (n : Nat) (rs : List (Rule α)) :
    Except Error (List (α × Nat)) :=
  ((rs.zipIdx n).filter fun p => isActive p.1).mapM fun p => do
    return (← p.1.weightedDegree vs b.conjunction b.disjunction, p.2)

/-- The degrees of the active rules of the block. -/
def degrees (vs : Variables α) (b : RuleBlock α) : Except Error (List (α × Nat)) :=
  degreesFrom vs b 0 b.rules

@[simp] theorem degreesFrom_nil (vs : Variables α) (b : RuleBlock α) (n : Nat) :
    degreesFrom vs b n [] = .ok [] := rfl

theorem degreesFrom_cons (vs : Variables α) (b : RuleBlock α) (n : Nat) (r : Rule α)
    (rs : List (Rule α)) :
    degreesFrom vs b n (r :: rs) =
      if isActive r then do
        let d ← r.weightedDegree vs b.conjunction b.disjunction
        let ds ← degreesFrom vs b (n + 1) rs
        return (d, n) :: ds
      else degreesFrom vs b (n + 1) rs := by
  unfold degreesFrom
  rw [List.zipIdx_cons, List.filter_cons]
  split
  · rw [List.mapM_cons]
    cases r.weightedDegree vs b.conjunction b.disjunction <;> rfl
  · rfl

/-- The degrees belong to the active rules, in order. -/
theorem map_snd_degreesFrom {vs : Variables α} {b : RuleBlock α} {n : Nat} {rs : List (Rule α)}
    {ds : List (α × Nat)} (h : degreesFrom vs b n rs = .ok ds) :
    ds.map Prod.snd = ((rs.zipIdx n).filter fun p => isActive p.1).map Prod.snd := by
  refine map_eq_of_mapM (fun p q hq => ?_) h
  obtain ⟨d, -, hd⟩ := bind_eq_ok_iff.1 hq
  cases hd
  rfl

/-- The indices of the degrees increase. -/
theorem pairwise_degreesFrom {vs : Variables α} {b : RuleBlock α} {n : Nat} {rs : List (Rule α)}
    {ds : List (α × Nat)} (h : degreesFrom vs b n rs = .ok ds) : (ds.map Prod.snd).Pairwise (· < ·) := by
  -- they are some of `n, n + 1, …`, in this order
  have hsub : (((rs.zipIdx n).filter fun p => isActive p.1).map Prod.snd).Sublist
      ((rs.zipIdx n).map Prod.snd) := List.filter_sublist.map Prod.snd
  rw [map_snd_degreesFrom h]
  refine List.Pairwise.sublist hsub ?_
  rw [List.zipIdx_map_snd]
  exact List.pairwise_lt_range'

/-- No rule has two degrees. -/
theorem nodup_degreesFrom {vs : Variables α} {b : RuleBlock α} {n : Nat} {rs : List (Rule α)}
    {ds : List (α × Nat)} (h : degreesFrom vs b n rs = .ok ds) : (ds.map Prod.snd).Nodup :=
  (pairwise_degreesFrom h).imp Nat.ne_of_lt

/-- What has a degree is an active rule. -/
theorem exists_of_mem_degrees {vs : Variables α} {b : RuleBlock α} {ds : List (α × Nat)} {p : α × Nat}
    (h : b.degrees vs = .ok ds) (hp : p ∈ ds) :
    ∃ r, b.rules[p.2]? = some r ∧ isActive r ∧
      r.weightedDegree vs b.conjunction b.disjunction = .ok p.1 := by
  obtain ⟨⟨r, j⟩, hr, hrp⟩ := exists_of_mem_mapM h hp
  obtain ⟨d, hd, hdp⟩ := bind_eq_ok_iff.1 hrp
  cases hdp
  obtain ⟨hr, hactive⟩ := List.mem_filter.1 hr
  exact ⟨r, List.mk_mem_zipIdx_iff_getElem?.1 hr, hactive, hd⟩

/-! ## §2 The first phase -/

/-- A rule of the given index after the first phase. -/
def evaluated (ds : List (α × Nat)) (r : Rule α) (j : Nat) : Rule α :=
  match degreeAt ds j with
  | some d => { r.deactivate with degree := d }
  | none => r

/-- The indices of degrees are those of the rules of the list. -/
theorem le_of_mem_degreesFrom {vs : Variables α} {b : RuleBlock α} {n : Nat} {rs : List (Rule α)}
    {ds : List (α × Nat)} (h : degreesFrom vs b n rs = .ok ds) {j : Nat}
    (hj : j ∈ ds.map Prod.snd) : n ≤ j := by
  rw [map_snd_degreesFrom h] at hj
  obtain ⟨p, hp, rfl⟩ := List.mem_map.1 hj
  exact (List.mem_zipIdx (List.mem_filter.1 hp).1).1

/-- When all degrees have a value, the first phase takes them over. -/
theorem evaluateFrom_of_degrees {vs : Variables α} {b : RuleBlock α} {n : Nat} {rs : List (Rule α)}
    {ds : List (α × Nat)} (h : degreesFrom vs b n rs = .ok ds) :
    evaluateFrom vs b n rs = (⟨(rs.zipIdx n).map fun p => evaluated ds p.1 p.2, ds⟩, none) := by
  induction rs generalizing n ds with
  | nil =>
    cases h
    rfl
  | cons r rs ih =>
    rw [degreesFrom_cons] at h
    unfold evaluateFrom
    split at h
    next hactive =>
      obtain ⟨d, hd, h⟩ := bind_eq_ok_iff.1 h
      obtain ⟨rest, hrest, h⟩ := bind_eq_ok_iff.1 h
      cases h
      -- a degree does not depend on the degree that the rule had before
      have hd' : r.deactivate.weightedDegree vs b.conjunction b.disjunction = .ok d := hd
      -- the degree of the first rule is not looked at by the rules after it
      have htail : (rs.zipIdx (n + 1)).map (fun p => evaluated ((d, n) :: rest) p.1 p.2) =
          (rs.zipIdx (n + 1)).map fun p => evaluated rest p.1 p.2 := by
        refine List.map_congr_left fun p hp => ?_
        have hlt : n + 1 ≤ p.2 := (List.mem_zipIdx hp).1
        have hne : (n == p.2) = false := beq_false_of_ne (by omega)
        simp [evaluated, degreeAt_cons, hne]
      rw [if_pos hactive, hd', ih hrest, List.zipIdx_cons, List.map_cons, htail]
      simp [evaluated, degreeAt_cons]
    next hactive =>
      -- an inactive rule is skipped, so that nothing in the list belongs to it
      have hnone : degreeAt ds n = none :=
        degreeAt_eq_none fun hn => by
          have := le_of_mem_degreesFrom h hn
          omega
      rw [if_neg hactive, ih h, List.zipIdx_cons, List.map_cons]
      simp [evaluated, hnone]

/-- The first degree that is refused stops the first phase. -/
theorem evaluateFrom_error {vs : Variables α} {b : RuleBlock α} {n : Nat} {rs : List (Rule α)}
    {e : Error} (h : degreesFrom vs b n rs = .error e) : (evaluateFrom vs b n rs).2 = some e := by
  induction rs generalizing n with
  | nil => cases h
  | cons r rs ih =>
    rw [degreesFrom_cons] at h
    unfold evaluateFrom
    split at h
    next hactive =>
      rw [if_pos hactive]
      rcases bind_eq_error_iff.1 h with h | ⟨d, hd, h⟩
      · have h' : r.deactivate.weightedDegree vs b.conjunction b.disjunction = .error e := h
        rw [h']
      · have hd' : r.deactivate.weightedDegree vs b.conjunction b.disjunction = .ok d := hd
        rcases bind_eq_error_iff.1 h with h | ⟨_, _, h⟩
        · rw [hd']
          exact ih h
        · cases h
    next hactive =>
      rw [if_neg hactive]
      exact ih h

/-! ## §3 The second phase -/

/-- What a rule of the block adds when it fires with a degree. -/
def additionsOf (vs : Variables α) (b : RuleBlock α) (p : α × Nat) : Except Error (Trail α) :=
  match b.rules[p.2]? with
  | some r => Rule.additions vs b.implication p.1 r.conclusions
  | none => .ok []

/-- What rules add that fire one after the other. -/
def allAdditions (vs : Variables α) (b : RuleBlock α) (ps : List (α × Nat)) : Except Error (Trail α) :=
  List.flatten <$> ps.mapM (b.additionsOf vs)

/-- The rules that fire, in order, each with the degree with which it fires. -/
def fired (b : RuleBlock α) (ds : List (α × Nat)) : List (α × Nat) :=
  (b.method.select ds).filter Activation.fires

/-- A rule that was asked to fire with a degree. -/
def markRule (d : α) (r : Rule α) : Rule α :=
  { r with degree := d, triggered := r.triggered || above d 0.0 }

/-- The block of which one rule was asked to fire with a degree. -/
def mark (b : RuleBlock α) (p : α × Nat) : RuleBlock α :=
  { b with rules := b.rules.modify p.2 (markRule p.1) }

/-- The index is that of an active rule. -/
def HasActive (b : RuleBlock α) (j : Nat) : Prop := ∃ r, b.rules[j]? = some r ∧ isActive r = true

@[simp] theorem additionsOf_receive (vs : Variables α) (t : Trail α) (b : RuleBlock α) :
    b.additionsOf (vs.receive t) = b.additionsOf vs := by
  funext p
  simp [additionsOf]

@[simp] theorem allAdditions_receive (vs : Variables α) (t : Trail α) (b : RuleBlock α)
    (ps : List (α × Nat)) : b.allAdditions (vs.receive t) ps = b.allAdditions vs ps := by
  simp [allAdditions]

theorem getElem?_mark (b : RuleBlock α) (p : α × Nat) (j : Nat) :
    (b.mark p).rules[j]? = (b.rules[j]?).map fun r => if p.2 = j then markRule p.1 r else r := by
  simp only [mark, List.getElem?_modify]
  split
  · rfl
  · rw [Option.map_eq_map, Option.map_id']

/-- Neither the degree of a rule nor whether it was triggered matters for what rules add. -/
@[simp] theorem additionsOf_mark (vs : Variables α) (b : RuleBlock α) (p : α × Nat) :
    (b.mark p).additionsOf vs = b.additionsOf vs := by
  funext q
  simp only [additionsOf, getElem?_mark]
  cases b.rules[q.2]? with
  | none => rfl
  | some r =>
    change Rule.additions vs b.implication q.1
      (if p.2 = q.2 then markRule p.1 r else r).conclusions = _
    split
    · rfl
    · rfl

@[simp] theorem allAdditions_mark (vs : Variables α) (b : RuleBlock α) (p : α × Nat)
    (ps : List (α × Nat)) : (b.mark p).allAdditions vs ps = b.allAdditions vs ps := by
  simp [allAdditions]

theorem HasActive.mark {b : RuleBlock α} {j : Nat} (h : b.HasActive j) (p : α × Nat) :
    (b.mark p).HasActive j := by
  obtain ⟨r, hr, hactive⟩ := h
  rw [HasActive, getElem?_mark, hr]
  refine ⟨_, rfl, ?_⟩
  split
  · exact hactive
  · exact hactive

theorem allAdditions_cons (vs : Variables α) (b : RuleBlock α) (p : α × Nat) (ps : List (α × Nat)) :
    b.allAdditions vs (p :: ps) = (do
      let t ← b.additionsOf vs p
      let u ← b.allAdditions vs ps
      return t ++ u) := by
  rw [allAdditions, allAdditions, List.mapM_cons]
  cases b.additionsOf vs p with
  | error e => rfl
  | ok t => cases ps.mapM (b.additionsOf vs) <;> rfl

/-- An active rule that is asked to fire does so when its degree is positive. -/
theorem value_trigger (implication : Option TNorm) (vs : Variables α) {r : Rule α}
    (h : isActive r = true) :
    (Rule.trigger implication vs r).value =
      (fun t => (vs.receive t, { r with triggered := r.triggered || above r.degree 0.0 })) <$>
        (if above r.degree 0.0 then Rule.additions vs implication r.degree r.conclusions else .ok []) := by
  obtain ⟨henabled, hloaded⟩ := Bool.and_eq_true_iff.1 h
  unfold Rule.trigger
  rw [if_neg (by simp [hloaded])]
  cases habove : above r.degree 0.0 with
  | false =>
    rw [if_neg (by simp)]
    simp
  | true =>
    rw [if_pos (by simp [henabled])]
    simp only [Outcome.value_andThen, Outcome.value_map, Rule.value_conclude, if_true, Bool.or_true]
    cases Rule.additions vs implication r.degree r.conclusions <;> rfl

/-- Asking an active rule to fire. -/
theorem value_fire (vs : Variables α) {b : RuleBlock α} {p : α × Nat} (h : b.HasActive p.2) :
    (fire p (vs, b)).value = (fun t => (vs.receive t, b.mark p)) <$>
      (if Activation.fires p then b.additionsOf vs p else .ok []) := by
  obtain ⟨r, hr, hactive⟩ := h
  -- a rule is marked in its place
  have hmark : b.mark p = b.setRule p.2 (markRule p.1 r) := by
    simp only [mark, setRule, List.modify_eq_set_getElem?, hr, Option.map_eq_map, Option.map_some,
      Option.getD_some]
  simp only [fire, additionsOf, hr, hmark, Outcome.value_map]
  rw [value_trigger b.implication vs (r := { r with degree := p.1 }) hactive]
  by_cases hfires : Activation.fires p = true
  · have habove : above p.1 0.0 = true := hfires
    rw [if_pos hfires, if_pos habove]
    cases Rule.additions vs b.implication p.1 r.conclusions <;> rfl
  · have habove : ¬above p.1 0.0 = true := hfires
    rw [if_neg hfires, if_neg habove]
    rfl

/-- No rule sees what another one of the same block added. -/
theorem value_fireAll (vs : Variables α) {b : RuleBlock α} {ps : List (α × Nat)}
    (h : ∀ p ∈ ps, b.HasActive p.2) :
    (fireAll ps (vs, b)).value = (fun t => (vs.receive t, ps.foldl mark b)) <$>
      b.allAdditions vs (ps.filter Activation.fires) := by
  -- both the variables and the block change from rule to rule, but not what the rest adds to them
  induction ps generalizing vs b with
  | nil => simp [fireAll, Outcome.each, allAdditions]
  | cons p ps ih =>
    have hrest : ∀ q ∈ ps, (b.mark p).HasActive q.2 :=
      fun q hq => (h q (List.mem_cons_of_mem _ hq)).mark p
    change ((fire p (vs, b)).andThen (fireAll ps)).value = _
    rw [Outcome.value_andThen, value_fire vs (h p List.mem_cons_self), List.filter_cons]
    split
    next hfires =>
      rw [allAdditions_cons]
      cases b.additionsOf vs p with
      | error e => rfl
      | ok t =>
        rw [map_ok, ok_bind, ok_bind, ih (vs.receive t) hrest, allAdditions_receive, allAdditions_mark]
        cases b.allAdditions vs (ps.filter Activation.fires) <;> simp
    next hfires =>
      rw [map_ok, ok_bind, ih (vs.receive []) hrest, allAdditions_receive, allAdditions_mark]
      simp

/-! ## §4 Blocks -/

/-- A rule of the given index after a cycle: an active one has its share of the degrees of the block, and is
triggered when it is among those that fired. -/
def settledRule (b : RuleBlock α) (ds : List (α × Nat)) (r : Rule α) (j : Nat) : Rule α :=
  match degreeAt ds j with
  | some d =>
    { r with degree := b.method.share ds d, triggered := (b.fired ds).any fun p => p.2 == j }
  | none => r

/-- The block after a cycle in which its active rules had these degrees. -/
def settled (b : RuleBlock α) (ds : List (α × Nat)) : RuleBlock α :=
  { b with rules := b.rules.zipIdx.map fun p => b.settledRule ds p.1 p.2 }

/-- The block after the first phase. -/
def afterEvaluation (b : RuleBlock α) (ds : List (α × Nat)) : RuleBlock α :=
  { b with rules := b.rules.zipIdx.map fun p => evaluated ds p.1 p.2 }

theorem getElem?_afterEvaluation (b : RuleBlock α) (ds : List (α × Nat)) (j : Nat) :
    (b.afterEvaluation ds).rules[j]? = (b.rules[j]?).map fun r => evaluated ds r j := by
  cases h : b.rules[j]? <;> simp [afterEvaluation, h]

theorem getElem?_settled (b : RuleBlock α) (ds : List (α × Nat)) (j : Nat) :
    (b.settled ds).rules[j]? = (b.rules[j]?).map fun r => b.settledRule ds r j := by
  cases h : b.rules[j]? <;> simp [settled, h]

theorem additionsOf_afterEvaluation (vs : Variables α) (b : RuleBlock α) (ds : List (α × Nat)) :
    (b.afterEvaluation ds).additionsOf vs = b.additionsOf vs := by
  funext p
  simp only [additionsOf, getElem?_afterEvaluation]
  cases b.rules[p.2]? with
  | none => rfl
  | some r =>
    change Rule.additions vs b.implication p.1 (evaluated ds r p.2).conclusions = _
    unfold evaluated
    split
    · rfl
    · rfl

theorem HasActive.afterEvaluation {b : RuleBlock α} {j : Nat} (h : b.HasActive j)
    (ds : List (α × Nat)) : (b.afterEvaluation ds).HasActive j := by
  obtain ⟨r, hr, hactive⟩ := h
  rw [HasActive, getElem?_afterEvaluation, hr]
  refine ⟨_, rfl, ?_⟩
  unfold evaluated
  split
  · exact hactive
  · exact hactive

/-- Asking rules to fire changes nothing of a block but its rules. -/
theorem foldl_mark (ps : List (α × Nat)) (b : RuleBlock α) :
    ps.foldl mark b = { b with rules := (ps.foldl mark b).rules } := by
  induction ps generalizing b with
  | nil => rfl
  | cons p ps ih =>
    rw [List.foldl_cons, ih (b.mark p)]
    rfl

/-- Every rule that is asked to fire is marked once. -/
theorem getElem?_foldl_mark {ps : List (α × Nat)} (h : (ps.map Prod.snd).Nodup) (b : RuleBlock α)
    (j : Nat) :
    (ps.foldl mark b).rules[j]? = (b.rules[j]?).map fun r =>
      match degreeAt ps j with
      | some d => markRule d r
      | none => r := by
  induction ps generalizing b with
  | nil => simp [degreeAt]
  | cons p ps ih =>
    obtain ⟨hp, hps⟩ := List.nodup_cons.1 h
    rw [List.foldl_cons, ih hps, getElem?_mark, Option.map_map, degreeAt_cons]
    cases hj : p.2 == j with
    -- the rule is asked now, and not once more by the rest
    | true =>
      have e : p.2 = j := eq_of_beq hj
      simp [Function.comp_def, e, degreeAt_eq_none (e ▸ hp)]
    | false =>
      have e : p.2 ≠ j := fun e => by simp [e] at hj
      simp [Function.comp_def, e]

/-- A rule fired when it was asked to with a positive degree. -/
theorem any_fired {b : RuleBlock α} {ds : List (α × Nat)} (h : (ds.map Prod.snd).Nodup) (j : Nat) :
    ((b.fired ds).any fun p => p.2 == j) =
      match degreeAt (b.method.select ds) j with
      | some d => above d 0.0
      | none => false := by
  have hnodup := Activation.nodup_select b.method h
  rw [Bool.eq_iff_iff]
  simp only [fired, List.any_eq_true, List.mem_filter, beq_iff_eq]
  constructor
  · rintro ⟨⟨d, i⟩, ⟨hmem, hfires⟩, rfl⟩
    rw [(degreeAt_eq_some_iff hnodup).2 hmem]
    exact hfires
  · intro hd
    split at hd
    next d hat => exact ⟨(d, j), ⟨(degreeAt_eq_some_iff hnodup).1 hat, hd⟩, rfl⟩
    next => cases hd

/-- Both phases together settle a rule. -/
theorem settledRule_eq {b : RuleBlock α} {ds : List (α × Nat)} (h : (ds.map Prod.snd).Nodup)
    (r : Rule α) (j : Nat) :
    b.settledRule ds r j =
      match degreeAt (b.method.select ds) j with
      | some d => markRule d (evaluated ds r j)
      | none => evaluated ds r j := by
  have hnodup := Activation.nodup_select b.method h
  unfold settledRule evaluated
  -- a rule may have no degree, have one and not be selected, or be selected with its share
  cases hd : degreeAt ds j with
  | none =>
    cases hs : degreeAt (b.method.select ds) j with
    | none => rfl
    | some d' =>
      -- only rules that have a degree are selected
      obtain ⟨d, hmem, -⟩ := Activation.exists_of_mem_select ((degreeAt_eq_some_iff hnodup).1 hs)
      rw [(degreeAt_eq_some_iff h).2 hmem] at hd
      cases hd
  | some d =>
    have hmem : (d, j) ∈ ds := (degreeAt_eq_some_iff h).1 hd
    cases hs : degreeAt (b.method.select ds) j with
    | none =>
      have hnot : ∀ p ∈ b.method.select ds, p.2 ≠ j := by
        rintro ⟨c, i⟩ hp rfl
        rw [(degreeAt_eq_some_iff hnodup).2 hp] at hs
        cases hs
      simp only [any_fired h, hs, Activation.share_eq_of_not_selected hmem hnot]
      rfl
    | some d' =>
      obtain ⟨c, hc, hshare⟩ := Activation.exists_of_mem_select ((degreeAt_eq_some_iff hnodup).1 hs)
      have hcd : c = d := Option.some.inj (((degreeAt_eq_some_iff h).2 hc).symm.trans hd)
      subst hcd
      simp only [any_fired h, hs, ← hshare]
      rfl

/-- Both phases together settle the rules of a block. -/
theorem foldl_mark_afterEvaluation {b : RuleBlock α} {ds : List (α × Nat)}
    (h : (ds.map Prod.snd).Nodup) :
    (b.method.select ds).foldl mark (b.afterEvaluation ds) = b.settled ds := by
  have hrules : ((b.method.select ds).foldl mark (b.afterEvaluation ds)).rules = (b.settled ds).rules := by
    refine List.ext_getElem? fun j => ?_
    rw [getElem?_foldl_mark (Activation.nodup_select b.method h), getElem?_afterEvaluation,
      getElem?_settled, Option.map_map]
    congr 1
    funext r
    exact (settledRule_eq h r j).symm
  rw [foldl_mark, hrules]
  rfl

/-- A rule that is selected is active. -/
theorem hasActive_of_mem_select {vs : Variables α} {b : RuleBlock α} {ds : List (α × Nat)}
    (h : b.degrees vs = .ok ds) {p : α × Nat} (hp : p ∈ b.method.select ds) : b.HasActive p.2 := by
  obtain ⟨d, hmem, -⟩ := Activation.exists_of_mem_select hp
  obtain ⟨r, hr, hactive, -⟩ := exists_of_mem_degrees h hmem
  exact ⟨r, hr, hactive⟩

/-- A rule that fires is active. -/
theorem hasActive_of_mem_fired {vs : Variables α} {b : RuleBlock α} {ds : List (α × Nat)}
    (h : b.degrees vs = .ok ds) {p : α × Nat} (hp : p ∈ b.fired ds) : b.HasActive p.2 :=
  hasActive_of_mem_select h (List.mem_filter.1 hp).1

/-- Both phases: what the rules that fire add, and the settled rules. -/
theorem value_run (vs : Variables α) (b : RuleBlock α) :
    (b.run vs).value = (do
      let ds ← b.degrees vs
      let t ← b.allAdditions vs (b.fired ds)
      return (vs.receive t, b.settled ds)) := by
  cases h : b.degrees vs with
  | error e =>
    have herror : (b.evaluateAll vs).2 = some e := evaluateFrom_error h
    simp only [run, herror]
    rfl
  | ok ds =>
    have hall : b.evaluateAll vs = (⟨(b.afterEvaluation ds).rules, ds⟩, none) := evaluateFrom_of_degrees h
    have hnodup : (ds.map Prod.snd).Nodup := nodup_degreesFrom h
    have hactive : ∀ p ∈ b.method.select ds, (b.afterEvaluation ds).HasActive p.2 :=
      fun p hp => (hasActive_of_mem_select h hp).afterEvaluation ds
    have hstart : (b.run vs).value = (fireAll (b.method.select ds) (vs, b.afterEvaluation ds)).value := by
      simp only [run, hall]
      split
      · rfl
      · rfl
    -- what rules add does not depend on the degrees that the first phase wrote into them
    rw [hstart, value_fireAll vs hactive, foldl_mark_afterEvaluation hnodup, allAdditions,
      additionsOf_afterEvaluation]
    change _ <$> b.allAdditions vs (b.fired ds) = _
    rw [ok_bind]
    cases b.allAdditions vs (b.fired ds) <;> rfl

/-- What a block adds, and what is left of it; a disabled block is skipped. -/
def effect (vs : Variables α) (b : RuleBlock α) : Except Error (Trail α × RuleBlock α) :=
  if b.enabled then do
    let ds ← b.degrees vs
    let t ← b.allAdditions vs (b.fired ds)
    return (t, b.settled ds)
  else .ok ([], b)

/-- Activating a block is receiving what it adds. -/
theorem value_activate (vs : Variables α) (b : RuleBlock α) :
    (b.activate vs).value = (fun p => (vs.receive p.1, p.2)) <$> b.effect vs := by
  unfold activate effect
  split
  · rw [Outcome.value_andThen, Outcome.value_report]
    change (b.run vs).value = _
    rw [value_run]
    cases b.degrees vs with
    | error e => rfl
    | ok ds =>
      rw [ok_bind, ok_bind]
      cases b.allAdditions vs (b.fired ds) <;> rfl
  · simp

end RuleBlock

/-! ## §5 Blocks in order -/

namespace Engine

variable [Scalar α]

/-- What blocks add, each one after the blocks before it, and what is left of them. -/
def effects (vs : Variables α) : List (RuleBlock α) → Except Error (Trail α × List (RuleBlock α))
  | [] => .ok ([], [])
  | b :: rest => do
    let (t, b) ← b.effect vs
    let (u, rest) ← effects (vs.receive t) rest
    return (t ++ u, b :: rest)

/-- Activating blocks is receiving what they add. -/
theorem value_activateBlocks (bs : List (RuleBlock α)) (vs : Variables α) :
    (activateBlocks bs vs).value = (fun p => (vs.receive p.1, p.2)) <$> effects vs bs := by
  induction bs generalizing vs with
  | nil => simp [activateBlocks, effects]
  | cons b rest ih =>
    simp only [activateBlocks, effects, Outcome.value_andThen, Outcome.value_map,
      RuleBlock.value_activate]
    cases b.effect vs with
    | error e => rfl
    | ok p =>
      obtain ⟨t, b'⟩ := p
      simp only [map_ok, ok_bind, ih]
      cases effects (vs.receive t) rest <;> simp

/-- The activation of blocks comes to the one of an index, which is enabled, and finds variables there of
which `P` holds. -/
def Visits (P : Variables α → RuleBlock α → Prop) (vs : Variables α) (bs : List (RuleBlock α))
    (i : Nat) : Prop :=
  ∃ p b, effects vs (bs.take i) = .ok p ∧ bs[i]? = some b ∧ b.enabled = true ∧ P (vs.receive p.1) b

variable {P : Variables α → RuleBlock α → Prop}

theorem not_visits_nil (vs : Variables α) (i : Nat) : ¬Visits P vs [] i := by
  rintro ⟨p, b, -, h, -⟩
  cases h

theorem visits_zero (vs : Variables α) (b : RuleBlock α) (rest : List (RuleBlock α)) :
    Visits P vs (b :: rest) 0 ↔ b.enabled = true ∧ P vs b := by
  simp [Visits, effects]

theorem visits_succ (vs : Variables α) (b : RuleBlock α) (rest : List (RuleBlock α)) (i : Nat) :
    Visits P vs (b :: rest) (i + 1) ↔ ∃ p, b.effect vs = .ok p ∧ Visits P (vs.receive p.1) rest i := by
  simp only [Visits, List.take_succ_cons, List.getElem?_cons_succ, effects]
  constructor
  · rintro ⟨p, c, h, hc, henabled, hP⟩
    obtain ⟨q, hq, h⟩ := bind_eq_ok_iff.1 h
    obtain ⟨p', hp', h⟩ := bind_eq_ok_iff.1 h
    cases h
    exact ⟨q, hq, p', c, hp', hc, henabled, by rwa [Variables.receive_receive]⟩
  · rintro ⟨q, hq, p', c, hp', hc, henabled, hP⟩
    rw [Variables.receive_receive] at hP
    exact ⟨(q.1 ++ p'.1, q.2 :: p'.2), c, bind_eq_ok_iff.2 ⟨q, hq, bind_eq_ok_iff.2 ⟨p', hp', rfl⟩⟩, hc,
      henabled, hP⟩

/-- The activation of blocks that is not stopped comes to all enabled ones. -/
theorem visits_of_effects {vs : Variables α} {bs : List (RuleBlock α)}
    {p : Trail α × List (RuleBlock α)} (h : effects vs bs = .ok p) {i : Nat} {b : RuleBlock α}
    (hb : bs[i]? = some b) (henabled : b.enabled = true)
    (hP : ∀ ws ds, b.degrees ws = .ok ds → P ws b) : Visits P vs bs i := by
  induction bs generalizing vs p i with
  | nil => cases hb
  | cons c rest ih =>
    obtain ⟨q, hq, h⟩ := bind_eq_ok_iff.1 h
    obtain ⟨q', hq', -⟩ := bind_eq_ok_iff.1 h
    cases i with
    | zero =>
      cases hb
      unfold RuleBlock.effect at hq
      rw [if_pos henabled] at hq
      obtain ⟨ds, hds, -⟩ := bind_eq_ok_iff.1 hq
      exact (visits_zero vs _ rest).2 ⟨henabled, hP vs ds hds⟩
    | succ i => exact (visits_succ vs c rest i).2 ⟨q, hq, ih hq' hb⟩

end Engine

end FuzzyInference
