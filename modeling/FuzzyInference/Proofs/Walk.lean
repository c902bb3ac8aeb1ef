import FuzzyInference.Proofs.Cycle
import FuzzyInference.Proofs.References

/-!
# The walk of a cycle

What a completed cycle leaves in the fuzzy outputs can be said without the cycle. Walk through the enabled
blocks in order; in each block take the degrees of its active rules, against fuzzy outputs that hold what
the blocks before it added; walk through the rules that its activation method lets fire, and through the
conclusions of each in the order of its text; and write down one activated term for every conclusion on an
enabled variable. Nothing else gets into the fuzzy outputs, and nothing is left in them from the cycle
before.

The plan of this module:

* the walk, one relation for each level: conclusions, rules, blocks;
* the walk is determined by the variables and the blocks;
* a completed cycle has walked.

## Main statements

* `Walk.unique`: there is one walk
* `Engine.fuzzyOutputs_process`: what a completed cycle leaves in the fuzzy outputs and in the rules
-/

namespace FuzzyInference

open Scalar Checked

variable {α : Type}

/-! ## §1 The walk -/

namespace Variables

/-- The variables of an engine, where the fuzzy outputs hold a trail and nothing else. -/
def holding (vs : Variables α) (t : Trail α) : Variables α :=
  { vs with
    outputs := vs.outputs.map fun v => { v with fuzzyOutput := { v.fuzzyOutput with terms := t.on v.id } }
    removedInputs := []
    removedOutputs := [] }

@[simp] theorem receive_holding (vs : Variables α) (t u : Trail α) :
    (vs.holding t).receive u = vs.holding (t ++ u) := by
  simp only [holding, receive, List.map_map, List.map_nil, Variables.mk.injEq, true_and, and_true]
  refine List.map_congr_left fun v _ => ?_
  simp [OutputVariable.receive]

theorem signature_holding (vs : Variables α) (t : Trail α) : (vs.holding t).signature = vs.signature := by
  simp only [signature, holding, List.map_map]
  rfl

variable [Scalar α]

/-- The activated term of a conclusion: the term that the conclusion names, at the degree of the rule
modified by the hedges of the conclusion, under the implication of the block. -/
structure Adds (vs : Variables α) (implication : Option TNorm) (degree : α) (p : Proposition)
    (a : Nat × Activated α) : Prop where
  output : a.1 = p.subject.id
  term : vs.term? p = some a.2.term
  degree : Hedge.applyAll p.hedges degree = .ok a.2.degree
  implication : a.2.implication = implication

end Variables

variable [Scalar α]

namespace Rule

/-- The degree that a rule gets from its antecedent: its weight times the degree of the condition. -/
def HasDegree (vs : Variables α) (conjunction : Option TNorm) (disjunction : Option SNorm) (r : Rule α)
    (d : α) : Prop :=
  ∃ c x, r.antecedent = some c ∧ c.degree conjunction disjunction vs.degreeOf = .ok x ∧
    d = r.weight * x

/-- The rule adds one activated term for every conclusion on an enabled variable, in the order of its
text. -/
def Adds (vs : Variables α) (implication : Option TNorm) (degree : α) (r : Rule α) (t : Trail α) : Prop :=
  List.Forall₂ (vs.Adds implication degree) (r.conclusions.filter fun p => vs.isEnabled p.subject) t

end Rule

namespace RuleBlock

/-- The degrees of the active rules, in order, each with the index of its rule. -/
def HasDegrees (vs : Variables α) (b : RuleBlock α) (ds : List (α × Nat)) : Prop :=
  List.Forall₂ (fun q p => q.1.HasDegree vs b.conjunction b.disjunction p.1 ∧ p.2 = q.2)
    (b.rules.zipIdx.filter fun q => isActive q.1) ds

/-- Rules that fire in a given order, each with its degree, add what they add one after the other. -/
def Adds (vs : Variables α) (b : RuleBlock α) (ps : List (α × Nat)) (t : Trail α) : Prop :=
  ∃ ts, List.Forall₂ (fun p u => ∃ r, b.rules[p.2]? = some r ∧ r.Adds vs b.implication p.1 u) ps ts ∧
    t = ts.flatten

end RuleBlock

/-- The walk through blocks, from a trail to a longer one, and from blocks to those that are left of them.
A block sees what the blocks before it added and nothing that it adds itself. -/
inductive Walk (vs : Variables α) :
    Trail α → List (RuleBlock α) → Trail α → List (RuleBlock α) → Prop
  /-- No block is left. -/
  | done {t : Trail α} : Walk vs t [] t []
  /-- A disabled block adds nothing and stays as it was. -/
  | skip {t u : Trail α} {b : RuleBlock α} {rest settled : List (RuleBlock α)} :
      b.enabled = false → Walk vs t rest u settled → Walk vs t (b :: rest) u (b :: settled)
  /-- An enabled block adds what its rules add that fire. -/
  | activate {t own u : Trail α} {b : RuleBlock α} {rest settled : List (RuleBlock α)}
      {ds : List (α × Nat)} :
      b.enabled = true → b.HasDegrees (vs.holding t) ds → b.Adds (vs.holding t) (b.fired ds) own →
        Walk vs (t ++ own) rest u settled → Walk vs t (b :: rest) u (b.settled ds :: settled)

/-! ## §2 The walk is determined -/

theorem Variables.Adds.unique {vs : Variables α} {implication : Option TNorm} {degree : α}
    {p : Proposition} {a b : Nat × Activated α} (ha : vs.Adds implication degree p a)
    (hb : vs.Adds implication degree p b) : a = b := by
  obtain ⟨i, t, d, m⟩ := a
  obtain ⟨j, u, c, n⟩ := b
  obtain ⟨hi, ht, hd, hm⟩ := ha
  obtain ⟨hj, hu, hc, hn⟩ := hb
  simp only at hi ht hd hm hj hu hc hn
  -- each field is given by a function of what both have in common
  cases hi.trans hj.symm
  cases ht.symm.trans hu
  cases hd.symm.trans hc
  cases hm.trans hn.symm
  rfl

theorem RuleBlock.HasDegrees.unique {vs : Variables α} {b : RuleBlock α} {ds es : List (α × Nat)}
    (hd : b.HasDegrees vs ds) (he : b.HasDegrees vs es) : ds = es := by
  refine Relator.RightUnique.forall₂ (fun q p p' hp hp' => ?_) hd he
  obtain ⟨⟨c, x, hc, hx, hw⟩, hj⟩ := hp
  obtain ⟨⟨c', x', hc', hx', hw'⟩, hj'⟩ := hp'
  cases hc.symm.trans hc'
  cases hx.symm.trans hx'
  exact Prod.ext (hw.trans hw'.symm) (hj.trans hj'.symm)

theorem RuleBlock.Adds.unique {vs : Variables α} {b : RuleBlock α} {ps : List (α × Nat)}
    {t u : Trail α} (ht : b.Adds vs ps t) (hu : b.Adds vs ps u) : t = u := by
  obtain ⟨ts, hts, rfl⟩ := ht
  obtain ⟨us, hus, rfl⟩ := hu
  rw [Relator.RightUnique.forall₂ (fun p t u ht hu => ?_) hts hus]
  obtain ⟨r, hr, ht⟩ := ht
  obtain ⟨r', hr', hu⟩ := hu
  cases hr.symm.trans hr'
  exact Relator.RightUnique.forall₂ (fun _ _ _ ha hb => ha.unique hb) ht hu

/-- There is one walk. -/
theorem Walk.unique {vs : Variables α} {t u u' : Trail α} {bs settled settled' : List (RuleBlock α)}
    (h : Walk vs t bs u settled) (h' : Walk vs t bs u' settled') : u = u' ∧ settled = settled' := by
  -- the second walk must take the step of the first one, since a block is either enabled or not
  induction h generalizing u' settled' with
  | done =>
    cases h'
    exact ⟨rfl, rfl⟩
  | skip hb _ ih =>
    cases h' with
    | skip _ hrest =>
      obtain ⟨rfl, rfl⟩ := ih hrest
      exact ⟨rfl, rfl⟩
    | activate hb' => exact absurd (hb.symm.trans hb') (by simp)
  | activate hb hds hown _ ih =>
    cases h' with
    | skip hb' => exact absurd (hb.symm.trans hb') (by simp)
    | activate _ hds' hown' hrest =>
      cases hds.unique hds'
      cases hown.unique hown'
      obtain ⟨rfl, rfl⟩ := ih hrest
      exact ⟨rfl, rfl⟩

/-! ## §3 A completed cycle has walked -/

namespace Variables

/-- Without what the cycle before left, the fuzzy outputs are those that hold nothing. -/
theorem alike_clearOutputs (vs : Variables α) : (Engine.clearOutputs vs).Alike (vs.holding []) where
  inputs := rfl
  outputs := rfl
  membership := fun _ _ _ _ _ => rfl

/-- A conclusion about an output of the engine adds one activated term, or none where the output is
disabled. -/
theorem adds_of_additions {vs : Variables α} {implication : Option TNorm} {degree : α} {p : Proposition}
    (hp : vs.Accepts p) (henabled : vs.isEnabled p.subject = true) {t : Trail α}
    (h : vs.additions implication degree p = .ok t) :
    ∃ a, t = [a] ∧ vs.Adds implication degree p a := by
  obtain ⟨u, hu⟩ := hp.term
  unfold additions at h
  rw [if_neg (by simp [henabled])] at h
  obtain ⟨d, hd, h⟩ := bind_eq_ok_iff.1 h
  rw [hu] at h
  cases h
  exact ⟨_, rfl, rfl, hu, liftM_eq_ok_iff.1 hd, rfl⟩

end Variables

/-- What the conclusions of a rule add is one activated term for each on an enabled variable. -/
theorem Rule.adds_of_additions {vs : Variables α} {implication : Option TNorm} {degree : α}
    {ps : List Proposition} (hps : ∀ p ∈ ps, vs.Accepts p) {t : Trail α}
    (h : Rule.additions vs implication degree ps = .ok t) :
    List.Forall₂ (vs.Adds implication degree) (ps.filter fun p => vs.isEnabled p.subject) t := by
  induction ps generalizing t with
  | nil =>
    cases h
    exact .nil
  | cons p ps ih =>
    rw [Rule.additions_cons] at h
    obtain ⟨u, hu, h⟩ := bind_eq_ok_iff.1 h
    obtain ⟨rest, hrest, h⟩ := bind_eq_ok_iff.1 h
    cases h
    have hforall := ih (fun q hq => hps q (List.mem_cons_of_mem _ hq)) hrest
    rw [List.filter_cons]
    split
    next henabled =>
      obtain ⟨a, rfl, ha⟩ := Variables.adds_of_additions (hps p List.mem_cons_self) henabled hu
      exact .cons ha hforall
    next hdisabled =>
      unfold Variables.additions at hu
      rw [if_pos (by simpa using hdisabled)] at hu
      cases hu
      exact hforall

namespace RuleBlock

theorem hasDegrees_of_degrees {vs : Variables α} {b : RuleBlock α} {ds : List (α × Nat)}
    (h : b.degrees vs = .ok ds) : b.HasDegrees vs ds := by
  refine ((mapM_eq_ok_iff _ _ _).1 h).imp fun q p hp => ?_
  obtain ⟨d, hd, hdp⟩ := bind_eq_ok_iff.1 hp
  cases hdp
  refine ⟨?_, rfl⟩
  unfold Rule.weightedDegree at hd
  split at hd
  next =>
    obtain ⟨x, hx, hdx⟩ := bind_eq_ok_iff.1 hd
    cases hdx
    unfold Rule.antecedentDegree at hx
    split at hx
    next => cases hx
    next c hc => exact ⟨c, x, hc, hx, rfl⟩
  next => cases hd

theorem adds_of_allAdditions {vs : Variables α} {b : RuleBlock α} (hb : b.RefersWithin vs)
    {ps : List (α × Nat)} (hps : ∀ p ∈ ps, b.HasActive p.2) {t : Trail α}
    (h : b.allAdditions vs ps = .ok t) : b.Adds vs ps t := by
  obtain ⟨ts, hts, rfl⟩ := map_eq_ok_iff.1 h
  refine ⟨ts, ?_, rfl⟩
  -- of every rule that fires, what it adds stands next to the fact that it is active
  have hall := (List.forall₂_and_left ps ts).2 ⟨hps, (mapM_eq_ok_iff _ _ _).1 hts⟩
  refine hall.imp fun p u hp => ?_
  obtain ⟨⟨r, hr, hactive⟩, hu⟩ := hp
  have hloaded : r.isLoaded = true := (Bool.and_eq_true_iff.1 hactive).2
  simp only [additionsOf, hr] at hu
  have hconclusions := (hb r (List.mem_of_getElem? hr) hloaded).conclusions
  exact ⟨r, hr, Rule.adds_of_additions hconclusions hu⟩

end RuleBlock

/-- What blocks add is what the walk writes down. -/
theorem walk_of_effects {vs : Variables α} {t u : Trail α} {bs settled : List (RuleBlock α)}
    (hbs : ∀ b ∈ bs, b.RefersWithin vs) (h : Engine.effects (vs.holding t) bs = .ok (u, settled)) :
    Walk vs t bs (t ++ u) settled := by
  -- the trail that is held grows from block to block
  induction bs generalizing t u settled with
  | nil =>
    cases h
    rw [List.append_nil]
    exact .done
  | cons b rest ih =>
    obtain ⟨⟨own, b'⟩, hb, h⟩ := bind_eq_ok_iff.1 h
    obtain ⟨⟨u', rest'⟩, hrest, h⟩ := bind_eq_ok_iff.1 h
    cases h
    -- the rest starts where the first block ends
    rw [Variables.receive_holding] at hrest
    have hwalk := ih (fun c hc => hbs c (List.mem_cons_of_mem _ hc)) hrest
    have hrefers : b.RefersWithin (vs.holding t) :=
      (hbs b List.mem_cons_self).of_signature_eq (vs.signature_holding t).symm
    unfold RuleBlock.effect at hb
    split at hb
    next henabled =>
      obtain ⟨ds, hds, hb⟩ := bind_eq_ok_iff.1 hb
      obtain ⟨own', hown, hb⟩ := bind_eq_ok_iff.1 hb
      cases hb
      have hfired : ∀ p ∈ b.fired ds, b.HasActive p.2 := fun p hp => RuleBlock.hasActive_of_mem_fired hds hp
      rw [← List.append_assoc]
      exact .activate henabled (RuleBlock.hasDegrees_of_degrees hds)
        (RuleBlock.adds_of_allAdditions hrefers hfired hown) hwalk
    next hdisabled =>
      cases hb
      rw [List.nil_append]
      rw [List.append_nil] at hwalk
      exact .skip (by simpa using hdisabled) hwalk

/-- The fuzzy outputs after a completed cycle are what the walk through the blocks writes down, and the rules
are settled by it: an active rule has the degree that its antecedent gave it (or its share of the block), and
is triggered when it fired. -/
theorem Engine.fuzzyOutputs_process (e : Engine α) (within : e.RefersWithin)
    (completed : e.process.error = none) :
    ∃ trail blocks, Walk e.store [] e.blocks trail blocks ∧
      e.process.state.blocks = blocks ∧
      e.process.state.outputs.map (fun v => (v.id, v.fuzzyOutput.terms)) =
        e.outputs.map fun v => (v.id, trail.on v.id) := by
  have hvalue := Outcome.value_of_error_eq_none completed
  rw [value_process] at hvalue
  obtain ⟨⟨trail, blocks⟩, heffects, hvalue⟩ := bind_eq_ok_iff.1 hvalue
  obtain ⟨store, hstore, hvalue⟩ := bind_eq_ok_iff.1 hvalue
  have hstate : { e with store, blocks, state := .evaluated } = e.process.state := Except.ok.inj hvalue
  refine ⟨trail, blocks, ?_, by rw [← hstate], ?_⟩
  · -- no rule can tell the cleared fuzzy outputs from those of a store without removed variables
    have halike := e.store.alike_clearOutputs
    have hclear : ∀ b ∈ e.blocks, b.RefersWithin (clearOutputs e.store) := by
      intro b hb
      refine (within b hb).of_signature_eq ?_
      rw [halike.signature_eq, e.store.signature_holding]
    rw [halike.effects_eq hclear] at heffects
    exact walk_of_effects within heffects
  · have hkept := map_outputs_defuzzifyFrom
      (f := fun v : OutputVariable α => (v.id, v.fuzzyOutput.terms))
      (fun around v => by
        obtain ⟨x, hx⟩ := v.defuzzify_fst around
        rw [hx]
        rfl)
      ((clearOutputs e.store).receive trail) [] ((clearOutputs e.store).receive trail).outputs
    have houtputs := (Outcome.value_eq_ok_iff.1 hstore).2
    rw [← hstate]
    change store.outputs.map _ = _
    rw [← houtputs]
    refine hkept.trans ?_
    simp only [List.nil_append, clearOutputs, Variables.receive, List.map_map]
    rfl

/-- The relay completes its cycle, and both of its blocks have walked. -/
theorem Engine.fuzzyOutputs_process_relay :
    relay.RefersWithin ∧ relay.process.error = none ∧
    ∃ trail blocks, Walk relay.store [] relay.blocks trail blocks ∧
      relay.process.state.blocks = blocks ∧
      relay.process.state.outputs.map (fun v => (v.id, v.fuzzyOutput.terms)) =
        relay.outputs.map fun v => (v.id, trail.on v.id) := by
  have completed : relay.process.error = none := by decide +kernel
  exact ⟨refersWithin_relay, completed, fuzzyOutputs_process relay refersWithin_relay completed⟩

end FuzzyInference
