import FuzzyInference.Proofs.Marks
import FuzzyInference.Proofs.References
import Mathlib.Data.List.Induction

/-!
# Runs of operations

Between cycles an engine is operated: inputs are set, variables, blocks and rules are enabled and disabled,
rules are loaded and unloaded. A rule is marked as triggered while it fires, so one would like the marks
after a completed cycle to tell which rules fired in it. They do, except for a rule that the cycle skips
because it is disabled, or because its block is: nothing takes its mark off, and it stays marked from the
last cycle in which it fired, however long ago that was. Which of the two a mark means depends on the whole
run.

The plan of this module:

* operations and runs;
* what operations do to a rule: they renew it, and take its mark off, or leave its mark alone;
* marks after a run, and after a completed cycle that follows a run.

## Main statements

* `Engine.isMarked_perform`: marks after one operation
* `Engine.isMarked_run`: marks after a run
* `Engine.isMarked_completed_cycle`: what the marks mean after a completed cycle
-/

namespace FuzzyInference

open Scalar Checked

/-! ## §1 Operations -/

/-- Rules that are loaded or unloaded together. -/
inductive Rules
  | all
  | ofBlock (i : Nat)
  | one (i j : Nat)
deriving DecidableEq, Repr

/-- The rule at the given indices is among them. -/
def Rules.has : Rules → Nat → Nat → Bool
  | all, _, _ => true
  | ofBlock i', i, _ => i' == i
  | one i' j', i, j => i' == i && j' == j

/-- What may be done with an engine between cycles, and the cycle itself. -/
inductive Operation
  | setInput (key : Key) (x : Float)
  | enableInput (key : Key) (on : Bool)
  | enableOutput (key : Key) (on : Bool)
  | enableBlock (i : Nat) (on : Bool)
  | enableRule (i j : Nat) (on : Bool)
  | load (rs : Rules)
  | unload (rs : Rules)
  | process
deriving Repr

namespace Engine

/-- Changes the rule at an index of the block at an index. -/
def modifyRule (e : Engine Float) (i j : Nat) (f : Rule Float → Rule Float) : Engine Float :=
  e.modifyBlock i fun b => { b with rules := b.rules.modify j f }

/-- The engine after an operation. One that is refused changes nothing, except for a cycle that is stopped
halfway. -/
def perform (e : Engine Float) : Operation → Engine Float
  | .setInput key x =>
    match e.setInputValue key x with
    | .ok e => e
    | .error _ => e
  | .enableInput key on =>
    match e.input key with
    | .ok v => e.modifyVariable (.input v) fun v => { v with enabled := on }
    | .error _ => e
  | .enableOutput key on =>
    match e.output key with
    | .ok v => e.modifyVariable (.output v) fun v => { v with enabled := on }
    | .error _ => e
  | .enableBlock i on => e.modifyBlock i fun b => { b with enabled := on }
  | .enableRule i j on => e.modifyRule i j fun r => { r with enabled := on }
  | .load .all => e.loadRules.1
  | .load (.ofBlock i) => e.modifyBlock i fun b => (b.loadAll e.vocabulary).1
  | .load (.one i j) => e.modifyRule i j fun r => (r.load e.vocabulary).1
  | .unload .all => { e with blocks := e.blocks.map RuleBlock.unloadAll }
  | .unload (.ofBlock i) => e.modifyBlock i RuleBlock.unloadAll
  | .unload (.one i j) => e.modifyRule i j Rule.unload
  | .process => e.process.state

/-- The engine after operations, one after the other. -/
def run (e : Engine Float) (ops : List Operation) : Engine Float := ops.foldl perform e

@[simp] theorem run_nil (e : Engine Float) : e.run [] = e := rfl

@[simp] theorem run_concat (e : Engine Float) (ops : List Operation) (op : Operation) :
    e.run (ops ++ [op]) = (e.run ops).perform op := by
  simp [run]

/-! ## §2 What operations do to a rule -/

/-- The rule at an index of the block at an index. -/
def ruleAt? (e : Engine Float) (i j : Nat) : Option (Rule Float) :=
  (e.blocks[i]?).bind fun b => b.rules[j]?

theorem isMarked_iff (e : Engine Float) (i j : Nat) :
    e.IsMarked i j ↔ ∃ r, e.ruleAt? i j = some r ∧ r.triggered = true := by
  simp only [IsMarked, MarkedIn, TriggeredAt, ruleAt?, Option.bind_eq_some_iff]
  constructor
  · rintro ⟨b, hb, r, hr, ht⟩
    exact ⟨r, ⟨b, hb, hr⟩, ht⟩
  · rintro ⟨r, ⟨b, hb, hr⟩, ht⟩
    exact ⟨b, hb, r, hr, ht⟩

/-- An operation other than a cycle does this to the rule at the given indices. -/
def onRule (e : Engine Float) (i j : Nat) (r : Rule Float) : Operation → Rule Float
  | .enableRule i' j' on => if (Rules.one i' j').has i j then { r with enabled := on } else r
  | .load rs => if rs.has i j then (r.load e.vocabulary).1 else r
  | .unload rs => if rs.has i j then r.unload else r
  | _ => r

/-- Changing the rules of a block changes them one by one. -/
theorem ruleAt?_modifyBlock {e : Engine Float} {k : Nat} {f : RuleBlock Float → RuleBlock Float}
    {g : Rule Float → Rule Float} (h : ∀ b, (f b).rules = b.rules.map g) (i j : Nat) :
    (e.modifyBlock k f).ruleAt? i j =
      (e.ruleAt? i j).map fun r => if (Rules.ofBlock k).has i j then g r else r := by
  simp only [ruleAt?, modifyBlock, List.getElem?_modify, Rules.has, beq_iff_eq]
  cases e.blocks[i]? with
  | none => rfl
  | some b => by_cases hi : k = i <;> simp [hi, h]

theorem ruleAt?_modifyRule (e : Engine Float) (i' j' : Nat) (f : Rule Float → Rule Float) (i j : Nat) :
    (e.modifyRule i' j' f).ruleAt? i j =
      (e.ruleAt? i j).map fun r => if (Rules.one i' j').has i j then f r else r := by
  simp only [ruleAt?, modifyRule, modifyBlock, List.getElem?_modify, Rules.has, Bool.and_eq_true,
    beq_iff_eq]
  cases e.blocks[i]? with
  | none => rfl
  | some b =>
    by_cases hi : i' = i
    · by_cases hj : j' = j <;> simp [hi, hj]
    · simp [hi]

theorem ruleAt?_map {e : Engine Float} {f : RuleBlock Float → RuleBlock Float}
    {g : Rule Float → Rule Float} (h : ∀ b, (f b).rules = b.rules.map g) {e' : Engine Float}
    (he : e'.blocks = e.blocks.map f) (i j : Nat) :
    e'.ruleAt? i j = (e.ruleAt? i j).map fun r => if Rules.all.has i j then g r else r := by
  simp only [ruleAt?, he, List.getElem?_map, Rules.has, if_true]
  cases e.blocks[i]? with
  | none => rfl
  | some b => simp [h]

theorem rules_loadFrom (v : Vocabulary) (block : Name) (n : Nat) (rs : List (Rule Float)) :
    (RuleBlock.loadFrom v block n rs).1 = rs.map fun r => (r.load v).1 := by
  induction rs generalizing n with
  | nil => rfl
  | cons r rs ih =>
    unfold RuleBlock.loadFrom
    -- whether the rule is read or not, it is what `load` left of it
    rw [List.map_cons, ← ih (n + 1)]
    generalize RuleBlock.loadFrom v block (n + 1) rs = loaded
    rcases r.load v with ⟨r', _ | _⟩ <;> rfl

theorem rules_loadAll (v : Vocabulary) (b : RuleBlock Float) :
    (b.loadAll v).1.rules = b.rules.map fun r => (r.load v).1 :=
  rules_loadFrom v b.name 0 b.rules

theorem fst_loadBlocks (v : Vocabulary) (bs : List (RuleBlock Float)) :
    (loadBlocks v bs).1 = bs.map fun b => (b.loadAll v).1 := by
  induction bs with
  | nil => rfl
  | cons b rest ih =>
    rw [List.map_cons, ← ih]
    rfl

/-- What an operation other than a cycle does to the rules. -/
theorem ruleAt?_perform (e : Engine Float) {op : Operation} (hop : op ≠ .process) (i j : Nat) :
    (e.perform op).ruleAt? i j = (e.ruleAt? i j).map fun r => e.onRule i j r op := by
  -- operations on variables do not touch the blocks
  have hsame : ∀ e' : Engine Float, e'.blocks = e.blocks →
      e'.ruleAt? i j = (e.ruleAt? i j).map fun r => r := by
    intro e' h
    rw [ruleAt?, ruleAt?, h, Option.map_id']
  cases op with
  | setInput key x =>
    refine hsame _ ?_
    simp only [perform, setInputValue]
    cases e.input key <;> rfl
  | enableInput key on =>
    refine hsame _ ?_
    simp only [perform]
    cases e.input key <;> rfl
  | enableOutput key on =>
    refine hsame _ ?_
    simp only [perform]
    cases e.output key <;> rfl
  | enableBlock i' on =>
    have h := ruleAt?_modifyBlock (e := e) (k := i')
      (f := fun b : RuleBlock Float => { b with enabled := on }) (g := fun r => r)
      (fun b => (List.map_id' b.rules).symm) i j
    simpa [perform, onRule] using h
  | enableRule i' j' on => exact ruleAt?_modifyRule e i' j' _ i j
  | load rs =>
    cases rs with
    | all => exact ruleAt?_map (rules_loadAll e.vocabulary) (fst_loadBlocks e.vocabulary e.blocks) i j
    | ofBlock i' => exact ruleAt?_modifyBlock (rules_loadAll e.vocabulary) i j
    | one i' j' => exact ruleAt?_modifyRule e i' j' _ i j
  | unload rs =>
    cases rs with
    | all => exact ruleAt?_map (fun b => rfl) rfl i j
    | ofBlock i' => exact ruleAt?_modifyBlock (fun b => rfl) i j
    | one i' j' => exact ruleAt?_modifyRule e i' j' _ i j
  | process => exact absurd rfl hop

/-! ## §3 Marks after an operation -/

/-- The operation takes the mark off the rule at the given indices, before it may put it on again: a cycle
that evaluates the rule, and every operation that loads or unloads it. -/
def Renews (e : Engine Float) (i j : Nat) : Operation → Prop
  | .load rs | .unload rs => rs.has i j = true
  | .process => e.Evaluates i j
  | _ => False

/-- A rule that was loaded, or failed to be, is not marked. -/
theorem triggered_load (v : Vocabulary) (r : Rule Float) : (r.load v).1.triggered = false := by
  simp only [Rule.load]
  split
  · rfl
  · split
    · rfl
    · split
      · rfl
      · rfl

theorem triggered_onRule_of_renews {e : Engine Float} {op : Operation} (hop : op ≠ .process)
    {i j : Nat} (h : e.Renews i j op) (r : Rule Float) : (e.onRule i j r op).triggered = false := by
  cases op with
  | load rs =>
    have hrs : rs.has i j = true := h
    rw [onRule, if_pos hrs]
    exact triggered_load _ r
  | unload rs =>
    have hrs : rs.has i j = true := h
    rw [onRule, if_pos hrs]
    rfl
  | process => exact absurd rfl hop
  | _ => exact absurd h id

/-- An operation that does not renew a rule keeps its mark and leaves it loaded. -/
theorem onRule_of_not_renews {e : Engine Float} {op : Operation} {i j : Nat} (h : ¬e.Renews i j op)
    (r : Rule Float) :
    (e.onRule i j r op).triggered = r.triggered ∧ (e.onRule i j r op).isLoaded = r.isLoaded := by
  cases op with
  | enableRule i' j' on =>
    cases hone : (Rules.one i' j').has i j with
    | true =>
      rw [onRule, if_pos hone]
      exact ⟨rfl, rfl⟩
    | false =>
      rw [onRule, if_neg (by simp [hone])]
      exact ⟨rfl, rfl⟩
  | load rs =>
    have hrs : ¬rs.has i j = true := h
    rw [onRule, if_neg hrs]
    exact ⟨rfl, rfl⟩
  | unload rs =>
    have hrs : ¬rs.has i j = true := h
    rw [onRule, if_neg hrs]
    exact ⟨rfl, rfl⟩
  | _ => exact ⟨rfl, rfl⟩

/-- An operation marks a rule when it is a cycle in which the rule fires, and leaves a mark that it does not
renew. -/
theorem isMarked_perform (e : Engine Float) (op : Operation) (i j : Nat) :
    (e.perform op).IsMarked i j ↔
      (op = .process ∧ e.Fires i j) ∨ (e.IsMarked i j ∧ ¬e.Renews i j op) := by
  by_cases hop : op = .process
  · subst hop
    simp only [true_and]
    exact e.isMarked_process i j
  · rw [isMarked_iff, isMarked_iff, ruleAt?_perform e hop]
    constructor
    · rintro ⟨r', hr', ht⟩
      obtain ⟨r, hr, rfl⟩ := Option.map_eq_some_iff.1 hr'
      -- an operation that renews the rule would have taken the mark off
      have hnot : ¬e.Renews i j op := fun h => by
        rw [triggered_onRule_of_renews hop h] at ht
        cases ht
      rw [(onRule_of_not_renews hnot r).1] at ht
      exact .inr ⟨⟨r, hr, ht⟩, hnot⟩
    · rintro (⟨h, -⟩ | ⟨⟨r, hr, ht⟩, hnot⟩)
      · exact absurd h hop
      · refine ⟨e.onRule i j r op, by rw [hr]; rfl, ?_⟩
        rw [(onRule_of_not_renews hnot r).1]
        exact ht

/-! ## §4 Marks after a run -/

/-- No rule is marked, as in an engine that was just assembled or restarted. -/
def Unmarked (e : Engine Float) : Prop := ∀ b ∈ e.blocks, ∀ r ∈ b.rules, r.triggered = false

/-- The rule fired in a cycle of the run, and nothing has renewed it since. -/
def FiredLast (e : Engine Float) (ops : List Operation) (i j : Nat) : Prop :=
  ∃ before after, ops = before ++ .process :: after ∧ (e.run before).Fires i j ∧
    ∀ between op rest, after = between ++ op :: rest →
      ¬(e.run (before ++ .process :: between)).Renews i j op

theorem not_isMarked_of_unmarked {e : Engine Float} (h : e.Unmarked) (i j : Nat) : ¬e.IsMarked i j := by
  rintro ⟨b, hb, r, hr, ht⟩
  rw [h b (List.mem_of_getElem? hb) r (List.mem_of_getElem? hr)] at ht
  cases ht

theorem not_firedLast_nil (e : Engine Float) (i j : Nat) : ¬e.FiredLast [] i j := by
  rintro ⟨before, after, h, -⟩
  cases before <;> cases h

/-- One more operation is the cycle in which the rule fires, or does not renew it. -/
theorem firedLast_concat (e : Engine Float) (ops : List Operation) (op : Operation) (i j : Nat) :
    e.FiredLast (ops ++ [op]) i j ↔
      (op = .process ∧ (e.run ops).Fires i j) ∨
        (e.FiredLast ops i j ∧ ¬(e.run ops).Renews i j op) := by
  constructor
  · rintro ⟨before, after, h, hfires, hkept⟩
    -- the cycle in which the rule fired is the last operation, or comes before it
    rcases List.eq_nil_or_concat' after with rfl | ⟨after, o, rfl⟩
    · obtain ⟨rfl, hop⟩ := List.append_inj' h rfl
      exact .inl ⟨List.head_eq_of_cons_eq hop, hfires⟩
    · rw [← List.cons_append, ← List.append_assoc] at h
      obtain ⟨rfl, hop⟩ := List.append_inj' h rfl
      obtain rfl := List.head_eq_of_cons_eq hop
      refine .inr ⟨⟨before, after, rfl, hfires, fun between o' rest h' => ?_⟩, hkept after op [] rfl⟩
      exact hkept between o' (rest ++ [op]) (by rw [h', List.append_assoc, List.cons_append])
  · rintro (⟨rfl, hfires⟩ | ⟨⟨before, after, rfl, hfires, hkept⟩, hop⟩)
    · refine ⟨ops, [], rfl, hfires, fun between o rest h => ?_⟩
      cases between <;> cases h
    · refine ⟨before, after ++ [op], by simp, hfires, fun between o rest h => ?_⟩
      rcases List.eq_nil_or_concat' rest with rfl | ⟨rest, o', rfl⟩
      · obtain ⟨rfl, ho⟩ := List.append_inj' h rfl
        obtain rfl := List.head_eq_of_cons_eq ho
        exact hop
      · rw [← List.cons_append, ← List.append_assoc] at h
        obtain ⟨rfl, -⟩ := List.append_inj' h rfl
        exact hkept between o rest rfl

/-- After a run a rule is marked when it fired in some cycle and was not renewed since. -/
theorem isMarked_run {e : Engine Float} (h : e.Unmarked) (ops : List Operation) (i j : Nat) :
    (e.run ops).IsMarked i j ↔ e.FiredLast ops i j := by
  induction ops using List.reverseRecOn with
  | nil => exact iff_of_false (not_isMarked_of_unmarked h i j) (not_firedLast_nil e i j)
  | append_singleton ops op ih => rw [run_concat, isMarked_perform, firedLast_concat, ih]

/-! ## §5 Marks after a completed cycle -/

/-- A rule that fires is loaded. -/
theorem isLoaded_of_fires {e : Engine Float} {i j : Nat} (h : e.Fires i j) {r : Rule Float}
    (hr : e.ruleAt? i j = some r) : r.isLoaded = true := by
  obtain ⟨p, b, -, hb, -, ds, hds, before, d, after, t, hfired, -⟩ := h
  have hmem : (d, j) ∈ b.fired ds := by
    rw [hfired]
    exact List.mem_append_right _ List.mem_cons_self
  obtain ⟨r', hr', hactive⟩ := RuleBlock.hasActive_of_mem_fired hds hmem
  rw [ruleAt?, hb, Option.bind_some, hr'] at hr
  cases hr
  exact (Bool.and_eq_true_iff.1 hactive).2

/-- A cycle leaves every rule at its place, loaded or not. -/
theorem exists_ruleAt?_of_process {e : Engine Float} {i j : Nat} {r : Rule Float}
    (h : e.process.state.ruleAt? i j = some r) :
    ∃ s, e.ruleAt? i j = some s ∧ r.isLoaded = s.isLoaded := by
  -- without degrees and marks the rules before and after the cycle are the same
  have hrest : ∀ e' : Engine Float, (e'.ruleAt? i j).map Rule.deactivate =
      ((e'.blocks.map RuleBlock.deactivate)[i]?).bind fun b => b.rules[j]? := by
    intro e'
    rw [ruleAt?, List.getElem?_map]
    cases e'.blocks[i]? with
    | none => rfl
    | some b => simp [RuleBlock.deactivate]
  have hsame := hrest e.process.state
  rw [deactivate_process, ← hrest e, h, Option.map_some] at hsame
  obtain ⟨s, hs, hrs⟩ := Option.map_eq_some_iff.1 hsame.symm
  have hloaded : r.deactivate.isLoaded = s.deactivate.isLoaded := by rw [hrs]
  exact ⟨s, hs, hloaded⟩

/-- A rule that is marked is loaded. -/
theorem isLoaded_of_isMarked_run {e : Engine Float} (h : e.Unmarked) (ops : List Operation) {i j : Nat}
    {r : Rule Float} (hr : (e.run ops).ruleAt? i j = some r) (ht : r.triggered = true) :
    r.isLoaded = true := by
  -- the last operation either renews the rule, and then marks only a loaded one, or leaves it as it was
  induction ops using List.reverseRecOn generalizing r with
  | nil => exact absurd ((isMarked_iff e i j).2 ⟨r, hr, ht⟩) (not_isMarked_of_unmarked h i j)
  | append_singleton ops op ih =>
    rw [run_concat] at hr
    have hmarked := (isMarked_iff _ i j).2 ⟨r, hr, ht⟩
    rw [isMarked_perform] at hmarked
    by_cases hop : op = .process
    · subst hop
      obtain ⟨s, hs, hrs⟩ := exists_ruleAt?_of_process hr
      rw [hrs]
      rcases hmarked with ⟨-, hfires⟩ | ⟨hbefore, -⟩
      · exact isLoaded_of_fires hfires hs
      · obtain ⟨s', hs', ht'⟩ := (isMarked_iff _ i j).1 hbefore
        cases hs.symm.trans hs'
        exact ih hs ht'
    · rcases hmarked with ⟨hprocess, -⟩ | ⟨-, hnot⟩
      · exact absurd hprocess hop
      · rw [ruleAt?_perform _ hop] at hr
        obtain ⟨s, hs, rfl⟩ := Option.map_eq_some_iff.1 hr
        obtain ⟨htriggered, hloaded⟩ := onRule_of_not_renews hnot s
        rw [hloaded]
        exact ih hs (htriggered ▸ ht)

/-- The rule at the given indices is disabled, or its block is. -/
def IsDisabled (e : Engine Float) (i j : Nat) : Prop :=
  ∃ b r, e.blocks[i]? = some b ∧ b.rules[j]? = some r ∧ (b.enabled = false ∨ r.enabled = false)

/-- A rule that is evaluated is enabled, and its block is. -/
theorem not_isDisabled_of_evaluates {e : Engine Float} {i j : Nat} (h : e.Evaluates i j) :
    ¬e.IsDisabled i j := by
  rintro ⟨b, r, hb, hr, hdisabled⟩
  obtain ⟨p, b', -, hb', henabled, r', ds, hr', hactive, -⟩ := h
  cases hb.symm.trans hb'
  cases hr.symm.trans hr'
  rcases hdisabled with hblock | hrule
  · rw [henabled] at hblock
    cases hblock
  · rw [(Bool.and_eq_true_iff.1 hactive).1] at hrule
    cases hrule

/-- After a completed cycle the mark of a rule means that the rule fired in this very cycle, unless the rule
is disabled or its block is: then it means that the rule fired in the last cycle that renewed it. -/
theorem isMarked_completed_cycle (e : Engine Float) (unmarked : e.Unmarked) (ops : List Operation)
    (completed : (e.run ops).process.error = none) (i j : Nat) :
    ((e.run ops).process.state.IsMarked i j ↔
      (e.run ops).Fires i j ∨ ((e.run ops).IsDisabled i j ∧ e.FiredLast ops i j)) ∧
    ¬((e.run ops).Fires i j ∧ (e.run ops).IsDisabled i j) := by
  have hrun := isMarked_run unmarked ops i j
  constructor
  · rw [isMarked_process, ← hrun]
    refine or_congr_right ⟨fun h => ⟨?_, h.1⟩, fun h => ⟨h.2, fun h' => not_isDisabled_of_evaluates h' h.1⟩⟩
    -- a marked rule is loaded, so a completed cycle passes it over only where something is disabled
    obtain ⟨⟨b, hb, r, hr, ht⟩, hnot⟩ := h
    have hloaded : r.isLoaded = true :=
      isLoaded_of_isMarked_run unmarked ops (by rw [ruleAt?, hb, Option.bind_some, hr]) ht
    refine ⟨b, r, hb, hr, ?_⟩
    cases henabled : b.enabled with
    | false => exact .inl rfl
    | true =>
      cases hrule : r.enabled with
      | false => exact .inr rfl
      | true =>
        have hactive : RuleBlock.isActive r = true := Bool.and_eq_true_iff.2 ⟨hrule, hloaded⟩
        exact absurd (evaluates_of_completed completed hb henabled hr hactive) hnot
  · rintro ⟨hfires, hdisabled⟩
    exact not_isDisabled_of_evaluates (evaluates_of_fires hfires) hdisabled

/-- A cycle of the relay in which both rules fire, after which the first rule is disabled. -/
def relayHistory : List Operation := [.process, .enableRule 0 0 false]

/-- The first rule of the relay is still marked after a completed cycle in which it did not fire. -/
theorem isMarked_completed_cycle_relay :
    relay.Unmarked ∧ (relay.run relayHistory).process.error = none ∧
      (relay.run relayHistory).process.state.IsMarked 0 0 ∧ ¬(relay.run relayHistory).Fires 0 0 := by
  have unmarked : relay.Unmarked := by
    intro b hb r hr
    rcases List.mem_pair.1 hb with rfl | rfl
    · cases List.mem_singleton.1 hr
      rfl
    · cases List.mem_singleton.1 hr
      rfl
  have completed : (relay.run relayHistory).process.error = none := by decide +kernel
  have htriggered : ((relay.run relayHistory).process.state.ruleAt? 0 0).map Rule.triggered = some true := by
    decide +kernel
  have henabled : ((relay.run relayHistory).ruleAt? 0 0).map Rule.enabled = some false := by
    decide +kernel
  have hmarked : (relay.run relayHistory).process.state.IsMarked 0 0 :=
    (isMarked_iff _ 0 0).2 (Option.map_eq_some_iff.1 htriggered)
  have hdisabled : (relay.run relayHistory).IsDisabled 0 0 := by
    obtain ⟨r, hr, hoff⟩ := Option.map_eq_some_iff.1 henabled
    obtain ⟨b, hb, hr⟩ := Option.bind_eq_some_iff.1 hr
    exact ⟨b, r, hb, hr, .inr hoff⟩
  have hcycle := isMarked_completed_cycle relay unmarked relayHistory completed 0 0
  exact ⟨unmarked, completed, hmarked, fun hfires => hcycle.2 ⟨hfires, hdisabled⟩⟩

end Engine

end FuzzyInference
