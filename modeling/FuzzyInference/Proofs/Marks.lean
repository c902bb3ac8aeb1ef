import FuzzyInference.Proofs.Frame

/-!
# Which rules are marked as triggered

A rule is marked as triggered when it fires, and the mark is taken off when the rule is evaluated again. A
cycle evaluates the active rules of the enabled blocks only, and when it is stopped it evaluates no rule
after that. This module says for every rule, also when the cycle is stopped, whether it is marked afterwards.

The plan of this module:

* marks after each phase of a block, and after a block;
* which rules of an engine a cycle evaluates and which it fires;
* marks after a cycle.

## Main statements

* `RuleBlock.triggeredAt_activate`: marks after a block was activated
* `Engine.triggeredAt_process`: marks after a cycle
-/

namespace FuzzyInference

open Scalar Checked

variable {α : Type}

/-- The rule of an index is marked as triggered. -/
def TriggeredAt (rs : List (Rule α)) (j : Nat) : Prop := ∃ r, rs[j]? = some r ∧ r.triggered = true

@[simp] theorem triggeredAt_cons_zero (r : Rule α) (rs : List (Rule α)) :
    TriggeredAt (r :: rs) 0 ↔ r.triggered = true := by
  simp [TriggeredAt]

@[simp] theorem triggeredAt_cons_succ (r : Rule α) (rs : List (Rule α)) (j : Nat) :
    TriggeredAt (r :: rs) (j + 1) ↔ TriggeredAt rs j := by
  simp [TriggeredAt]

/-- The rule of an index in the block of an index is marked as triggered. -/
def MarkedIn (bs : List (RuleBlock α)) (i j : Nat) : Prop :=
  ∃ b, bs[i]? = some b ∧ TriggeredAt b.rules j

@[simp] theorem markedIn_cons_zero (b : RuleBlock α) (rest : List (RuleBlock α)) (j : Nat) :
    MarkedIn (b :: rest) 0 j ↔ TriggeredAt b.rules j := by
  simp [MarkedIn]

@[simp] theorem markedIn_cons_succ (b : RuleBlock α) (rest : List (RuleBlock α)) (i j : Nat) :
    MarkedIn (b :: rest) (i + 1) j ↔ MarkedIn rest i j := by
  simp [MarkedIn]

variable [Scalar α]

namespace RuleBlock

/-! ## §1 The first phase -/

/-- The first phase comes to the rule of an index: it is active, and none of the active rules before it was
refused a degree. -/
def EvaluatesFrom (vs : Variables α) (b : RuleBlock α) (n : Nat) (rs : List (Rule α)) (j : Nat) : Prop :=
  ∃ r ds, rs[j]? = some r ∧ isActive r = true ∧ degreesFrom vs b n (rs.take j) = .ok ds

/-- The rule is evaluated when the block is activated. -/
def Evaluates (vs : Variables α) (b : RuleBlock α) (j : Nat) : Prop := EvaluatesFrom vs b 0 b.rules j

theorem evaluatesFrom_zero (vs : Variables α) (b : RuleBlock α) (n : Nat) (r : Rule α)
    (rs : List (Rule α)) : EvaluatesFrom vs b n (r :: rs) 0 ↔ isActive r = true := by
  simp [EvaluatesFrom]

theorem evaluatesFrom_succ (vs : Variables α) (b : RuleBlock α) (n : Nat) (r : Rule α)
    (rs : List (Rule α)) (j : Nat) :
    EvaluatesFrom vs b n (r :: rs) (j + 1) ↔
      (isActive r = true → ∃ d, r.weightedDegree vs b.conjunction b.disjunction = .ok d) ∧
        EvaluatesFrom vs b (n + 1) rs j := by
  simp only [EvaluatesFrom, List.getElem?_cons_succ, List.take_succ_cons, degreesFrom_cons]
  constructor
  · rintro ⟨s, ds, hs, hactive, h⟩
    split at h
    next =>
      obtain ⟨d, hd, h⟩ := bind_eq_ok_iff.1 h
      obtain ⟨rest, hrest, -⟩ := bind_eq_ok_iff.1 h
      exact ⟨fun _ => ⟨d, hd⟩, s, rest, hs, hactive, hrest⟩
    next hr => exact ⟨fun h => absurd h hr, s, ds, hs, hactive, h⟩
  · rintro ⟨hr, s, rest, hs, hactive, hrest⟩
    split
    next hactive' =>
      obtain ⟨d, hd⟩ := hr hactive'
      exact ⟨s, (d, n) :: rest, hs, hactive, by rw [hd, hrest]; rfl⟩
    next => exact ⟨s, rest, hs, hactive, hrest⟩

/-- The first phase takes the marks off the rules that it comes to. -/
theorem triggeredAt_evaluateFrom (vs : Variables α) (b : RuleBlock α) (n : Nat) (rs : List (Rule α))
    (j : Nat) :
    TriggeredAt (evaluateFrom vs b n rs).1.rules j ↔
      TriggeredAt rs j ∧ ¬EvaluatesFrom vs b n rs j := by
  -- the rule of the index is the first one or one of the rest, and the first one may be active or not,
  -- and when it is active may be refused
  induction rs generalizing n j with
  | nil => simp [evaluateFrom, TriggeredAt]
  | cons r rs ih =>
    unfold evaluateFrom
    by_cases hactive : isActive r = true
    · have hdegree : r.deactivate.weightedDegree vs b.conjunction b.disjunction =
          r.weightedDegree vs b.conjunction b.disjunction := rfl
      rw [if_pos hactive, hdegree]
      cases hd : r.weightedDegree vs b.conjunction b.disjunction with
      | error e =>
        cases j with
        | zero => simp [evaluatesFrom_zero, hactive, Rule.deactivate]
        -- the rules after a refusal are not evaluated, and keep their marks
        | succ j => simp [evaluatesFrom_succ, hactive, hd]
      | ok d =>
        cases j with
        | zero => simp [evaluatesFrom_zero, hactive, Rule.deactivate]
        | succ j => simp [evaluatesFrom_succ, hd, ih]
    · rw [if_neg hactive]
      cases j with
      | zero => simp [evaluatesFrom_zero, hactive]
      | succ j => simp [evaluatesFrom_succ, hactive, ih]

/-- When no degree is refused, all active rules are evaluated. -/
theorem evaluatesFrom_of_degrees {vs : Variables α} {b : RuleBlock α} {n : Nat} {rs : List (Rule α)}
    {ds : List (α × Nat)} (h : degreesFrom vs b n rs = .ok ds) {j : Nat} {r : Rule α}
    (hr : rs[j]? = some r) (hactive : isActive r = true) : EvaluatesFrom vs b n rs j := by
  induction rs generalizing n ds j with
  | nil => cases hr
  | cons s rs ih =>
    rw [degreesFrom_cons] at h
    cases j with
    | zero =>
      cases hr
      exact (evaluatesFrom_zero vs b n _ rs).2 hactive
    | succ j =>
      refine (evaluatesFrom_succ vs b n s rs j).2 ?_
      split at h
      next =>
        obtain ⟨d, hd, h⟩ := bind_eq_ok_iff.1 h
        obtain ⟨rest, hrest, -⟩ := bind_eq_ok_iff.1 h
        exact ⟨fun _ => ⟨d, hd⟩, ih hrest hr⟩
      next hs => exact ⟨fun hs' => absurd hs' hs, ih h hr⟩

/-! ## §2 The second phase -/

/-- The rule of an index is among those asked to fire, and its conclusions and those of the rules before it
were all activated. -/
def FiresAmong (vs : Variables α) (b : RuleBlock α) (ps : List (α × Nat)) (j : Nat) : Prop :=
  ∃ before d after t, ps = before ++ (d, j) :: after ∧ b.allAdditions vs (before ++ [(d, j)]) = .ok t

/-- The rule fires when the block is activated. -/
def Fires (vs : Variables α) (b : RuleBlock α) (j : Nat) : Prop :=
  ∃ ds, b.degrees vs = .ok ds ∧ FiresAmong vs b (b.fired ds) j

theorem not_firesAmong_nil (vs : Variables α) (b : RuleBlock α) (j : Nat) : ¬FiresAmong vs b [] j := by
  rintro ⟨before, d, after, t, h, -⟩
  cases before <;> cases h

theorem firesAmong_cons (vs : Variables α) (b : RuleBlock α) (p : α × Nat) (ps : List (α × Nat))
    (j : Nat) :
    FiresAmong vs b (p :: ps) j ↔
      ∃ t, b.additionsOf vs p = .ok t ∧ (p.2 = j ∨ FiresAmong vs b ps j) := by
  constructor
  · rintro ⟨before, d, after, t, h, hadd⟩
    cases before with
    | nil =>
      cases h
      rw [List.nil_append, allAdditions_cons] at hadd
      obtain ⟨u, hu, -⟩ := bind_eq_ok_iff.1 hadd
      exact ⟨u, hu, .inl rfl⟩
    | cons q before =>
      cases h
      rw [List.cons_append, allAdditions_cons] at hadd
      obtain ⟨u, hu, hadd⟩ := bind_eq_ok_iff.1 hadd
      obtain ⟨rest, hrest, -⟩ := bind_eq_ok_iff.1 hadd
      exact ⟨u, hu, .inr ⟨before, d, after, rest, rfl, hrest⟩⟩
  · rintro ⟨u, hu, rfl | ⟨before, d, after, rest, rfl, hrest⟩⟩
    · refine ⟨[], p.1, ps, u ++ [], rfl, ?_⟩
      rw [List.nil_append, allAdditions_cons]
      exact bind_eq_ok_iff.2 ⟨u, hu, rfl⟩
    · refine ⟨p :: before, d, after, u ++ rest, rfl, ?_⟩
      rw [List.cons_append, allAdditions_cons]
      exact bind_eq_ok_iff.2 ⟨u, hu, bind_eq_ok_iff.2 ⟨rest, hrest, rfl⟩⟩

/-- A rule whose conclusions are refused is not marked. -/
theorem trigger_of_error {implication : Option TNorm} {vs : Variables α} {r : Rule α} {e : Error}
    (h : (Rule.trigger implication vs r).error = some e) :
    (Rule.trigger implication vs r).state.2 = r := by
  unfold Rule.trigger at h ⊢
  split at h
  next => rw [if_pos ‹_›]; rfl
  next hloaded =>
    rw [if_neg hloaded]
    split at h
    next hfires =>
      rw [if_pos hfires]
      -- the mark is set after the conclusions, so that a refusal comes before it
      cases ho : (Rule.conclude implication r.degree r.conclusions vs : Outcome (Event α) _).error with
      | some e' =>
        rw [Outcome.andThen_stopped _ _ (by rw [Outcome.error_map]; exact ho)]
        rfl
      | none =>
        rw [Outcome.error_andThen_of_done (by rw [Outcome.error_map]; exact ho)] at h
        cases h
    next => cases h

theorem triggeredAt_mark (b : RuleBlock α) (p : α × Nat) (j : Nat) (h : b.HasActive p.2) :
    TriggeredAt (b.mark p).rules j ↔
      TriggeredAt b.rules j ∨ (p.2 = j ∧ Activation.fires p = true) := by
  unfold TriggeredAt
  rw [getElem?_mark]
  by_cases hj : p.2 = j
  · subst hj
    obtain ⟨r, hr, -⟩ := h
    simp [hr, markRule, Activation.fires]
  · simp [hj]

/-- Asking a rule to fire that is refused changes no mark. -/
theorem triggeredAt_fire_of_error {vs : Variables α} {b : RuleBlock α} {p : α × Nat} {e : Error}
    (h : (fire p (vs, b)).error = some e) (j : Nat) :
    TriggeredAt (fire p (vs, b)).state.2.rules j ↔ TriggeredAt b.rules j := by
  simp only [fire] at h ⊢
  cases hr : b.rules[p.2]? with
  | none =>
    simp only [hr] at h
    cases h
  | some r =>
    simp only [hr, Outcome.error_map] at h
    simp only [Outcome.state_map, trigger_of_error h, setRule, TriggeredAt, List.getElem?_set]
    split
    next hj =>
      subst hj
      rw [hr]
      split
      next => simp
      next hlt =>
        rw [List.getElem?_eq_none (Nat.le_of_not_lt hlt)] at hr
        cases hr
    next => exact Iff.rfl

/-- The second phase marks the rules that fire. -/
theorem triggeredAt_fireAll (vs : Variables α) {b : RuleBlock α} {ps : List (α × Nat)}
    (h : ∀ p ∈ ps, b.HasActive p.2) (j : Nat) :
    TriggeredAt (fireAll ps (vs, b)).state.2.rules j ↔
      TriggeredAt b.rules j ∨ FiresAmong vs b (ps.filter Activation.fires) j := by
  induction ps generalizing vs b with
  | nil => simp [fireAll, Outcome.each, Outcome.done, not_firesAmong_nil]
  | cons p ps ih =>
    have hp : b.HasActive p.2 := h p List.mem_cons_self
    have hrest : ∀ q ∈ ps, (b.mark p).HasActive q.2 :=
      fun q hq => (h q (List.mem_cons_of_mem _ hq)).mark p
    have hvalue := value_fire vs hp
    change TriggeredAt ((fire p (vs, b)).andThen (fireAll ps)).state.2.rules j ↔ _
    -- whether a later rule fires does not depend on what was added and marked before
    have hsame : ∀ t, FiresAmong (vs.receive t) (b.mark p) (ps.filter Activation.fires) j ↔
        FiresAmong vs b (ps.filter Activation.fires) j := by
      intro t
      simp [FiresAmong]
    by_cases hfires : Activation.fires p = true
    · rw [List.filter_cons_of_pos hfires, firesAmong_cons]
      rw [if_pos hfires] at hvalue
      cases hadd : b.additionsOf vs p with
      | error e =>
        rw [hadd] at hvalue
        have herror := Outcome.error_eq_some_iff.2 hvalue
        rw [Outcome.andThen_stopped _ _ herror, triggeredAt_fire_of_error herror]
        simp
      | ok t =>
        rw [hadd] at hvalue
        obtain ⟨herror, hstate⟩ := Outcome.value_eq_ok_iff.1 hvalue
        rw [Outcome.state_andThen_of_done herror, hstate, ih (vs.receive t) hrest, hsame,
          triggeredAt_mark b p j hp]
        simp [hfires, or_assoc]
    · rw [List.filter_cons_of_neg hfires]
      rw [if_neg hfires] at hvalue
      obtain ⟨herror, hstate⟩ := Outcome.value_eq_ok_iff.1 hvalue
      rw [Outcome.state_andThen_of_done herror, hstate, ih (vs.receive []) hrest, hsame,
        triggeredAt_mark b p j hp]
      simp [hfires]

/-- A rule that fires is evaluated. -/
theorem evaluates_of_fires {vs : Variables α} {b : RuleBlock α} {j : Nat} (h : b.Fires vs j) :
    b.Evaluates vs j := by
  obtain ⟨ds, hds, before, d, after, t, hfired, -⟩ := h
  have hmem : (d, j) ∈ b.fired ds := by
    rw [hfired]
    exact List.mem_append_right _ List.mem_cons_self
  obtain ⟨r, hr, hactive⟩ := hasActive_of_mem_fired hds hmem
  exact evaluatesFrom_of_degrees hds hr hactive

/-! ## §3 A block -/

/-- The rule at an index of an enabled block that is activated ends up marked when it fires, and keeps its
mark when it is not even evaluated. -/
theorem triggeredAt_run (vs : Variables α) (b : RuleBlock α) (j : Nat) :
    TriggeredAt (b.run vs).state.2.rules j ↔
      b.Fires vs j ∨ (TriggeredAt b.rules j ∧ ¬b.Evaluates vs j) := by
  have hevaluated := triggeredAt_evaluateFrom vs b 0 b.rules j
  cases h : b.degrees vs with
  | error e =>
    have herror : (b.evaluateAll vs).2 = some e := evaluateFrom_error h
    -- the second phase is not reached
    have hfires : ¬b.Fires vs j := by
      rintro ⟨ds, hds, -⟩
      rw [h] at hds
      cases hds
    simp only [run, herror, hfires, false_or]
    exact hevaluated
  | ok ds =>
    have hall : b.evaluateAll vs = (⟨(b.afterEvaluation ds).rules, ds⟩, none) := evaluateFrom_of_degrees h
    have hactive : ∀ p ∈ b.method.select ds, (b.afterEvaluation ds).HasActive p.2 :=
      fun p hp => (hasActive_of_mem_select h hp).afterEvaluation ds
    have hstate : (b.run vs).state =
        (fireAll (b.method.select ds) (vs, b.afterEvaluation ds)).state := by
      simp only [run, hall]
      split
      · rw [Outcome.state_andThen_of_done rfl]
        rfl
      · rw [Outcome.done_andThen]
        rfl
    have hfires : FiresAmong vs (b.afterEvaluation ds) (b.fired ds) j ↔ b.Fires vs j := by
      simp only [Fires, FiresAmong, allAdditions, additionsOf_afterEvaluation, h, Except.ok.injEq,
        exists_eq_left']
    have hmarked : TriggeredAt (b.afterEvaluation ds).rules j ↔
        TriggeredAt b.rules j ∧ ¬b.Evaluates vs j := by
      rw [evaluateAll] at hall
      rw [hall] at hevaluated
      exact hevaluated
    rw [hstate, triggeredAt_fireAll vs hactive, hmarked, or_comm]
    exact or_congr hfires Iff.rfl

/-- A disabled block leaves every mark. -/
theorem triggeredAt_activate (vs : Variables α) (b : RuleBlock α) (j : Nat) :
    TriggeredAt (b.activate vs).state.2.rules j ↔
      (b.enabled = true ∧ b.Fires vs j) ∨
        (TriggeredAt b.rules j ∧ ¬(b.enabled = true ∧ b.Evaluates vs j)) := by
  unfold activate
  split
  next henabled =>
    rw [Outcome.state_andThen_of_done rfl]
    simp only [henabled, true_and]
    exact triggeredAt_run vs b j
  next hdisabled => simp [hdisabled, Outcome.done]

end RuleBlock

/-! ## §4 Blocks in order -/

namespace Engine

/-- Marks after blocks were activated in order. -/
theorem markedIn_activateBlocks (bs : List (RuleBlock α)) (vs : Variables α) (i j : Nat) :
    MarkedIn (activateBlocks bs vs).state.2 i j ↔
      Visits (fun ws b => b.Fires ws j) vs bs i ∨
        (MarkedIn bs i j ∧ ¬Visits (fun ws b => b.Evaluates ws j) vs bs i) := by
  induction bs generalizing vs i with
  | nil => simp [activateBlocks, Outcome.done, not_visits_nil]
  | cons b rest ih =>
    have hvalue := b.value_activate vs
    cases heffect : b.effect vs with
    | error e =>
      -- the blocks after one that is stopped are not visited, and keep their marks
      rw [heffect] at hvalue
      rw [activateBlocks_cons_of_error (Outcome.error_eq_some_iff.2 hvalue)]
      cases i with
      | zero =>
        rw [markedIn_cons_zero, markedIn_cons_zero, visits_zero, visits_zero]
        exact b.triggeredAt_activate vs j
      | succ i => simp [visits_succ, heffect]
    | ok p =>
      rw [heffect] at hvalue
      obtain ⟨herror, hstate⟩ := Outcome.value_eq_ok_iff.1 hvalue
      rw [activateBlocks_cons_of_done herror]
      cases i with
      | zero =>
        rw [markedIn_cons_zero, markedIn_cons_zero, visits_zero, visits_zero]
        exact b.triggeredAt_activate vs j
      | succ i =>
        rw [hstate]
        simp only [markedIn_cons_succ, visits_succ, heffect, Except.ok.injEq, exists_eq_left', ih]

/-! ## §5 Cycles -/

/-- A cycle evaluates the rule of an index in the block of an index. -/
def Evaluates (e : Engine α) (i j : Nat) : Prop :=
  Visits (fun vs b => b.Evaluates vs j) (clearOutputs e.store) e.blocks i

/-- The rule fires in a cycle. -/
def Fires (e : Engine α) (i j : Nat) : Prop :=
  Visits (fun vs b => b.Fires vs j) (clearOutputs e.store) e.blocks i

/-- The rule is marked as triggered. -/
def IsMarked (e : Engine α) (i j : Nat) : Prop := MarkedIn e.blocks i j

theorem evaluates_of_fires {e : Engine α} {i j : Nat} (h : e.Fires i j) : e.Evaluates i j := by
  obtain ⟨p, b, hp, hb, henabled, hfires⟩ := h
  exact ⟨p, b, hp, hb, henabled, RuleBlock.evaluates_of_fires hfires⟩

/-- A completed cycle evaluates all active rules of the enabled blocks. -/
theorem evaluates_of_completed {e : Engine α} (h : e.process.error = none) {i j : Nat}
    {b : RuleBlock α} (hb : e.blocks[i]? = some b) (henabled : b.enabled = true) {r : Rule α}
    (hr : b.rules[j]? = some r) (hactive : RuleBlock.isActive r = true) : e.Evaluates i j := by
  have hvalue := Outcome.value_of_error_eq_none h
  rw [value_process] at hvalue
  obtain ⟨p, hp, -⟩ := bind_eq_ok_iff.1 hvalue
  exact visits_of_effects hp hb henabled
    fun ws ds hds => RuleBlock.evaluatesFrom_of_degrees hds hr hactive

/-- Marks after a cycle, whether it is completed or stopped. -/
theorem isMarked_process (e : Engine α) (i j : Nat) :
    e.process.state.IsMarked i j ↔ e.Fires i j ∨ (e.IsMarked i j ∧ ¬e.Evaluates i j) := by
  unfold IsMarked
  rw [blocks_process]
  exact markedIn_activateBlocks e.blocks (clearOutputs e.store) i j

end Engine

end FuzzyInference
