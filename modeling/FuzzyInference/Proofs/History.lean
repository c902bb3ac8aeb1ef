import FuzzyInference.Proofs.Frame
import FuzzyInference.Proofs.Locality
import FuzzyInference.Proofs.Range
import FuzzyInference.Proofs.References

/-!
# Cycles without history

What a cycle computes depends on the form of the engine alone, that is, on its structure, its configuration
and the values of its inputs: values of outputs, fuzzy outputs, degrees and marks that an earlier cycle left
are not read. Three things could carry history from one cycle to the next: rules that refer to variables
outside the engine, formulas that mention outputs, and outputs that lock their previous value. Without the
first two, the third one carries no more than the value itself, so that repeating a cycle changes no value.

The plan of this module:

* the trail of a cycle, which depends on the form;
* outputs that are defuzzified independently of each other;
* one output in two cycles;
* engines of the same form, and cycles that are repeated.

## Main statements

* `Engine.trail_eq_of_form_eq`: what the rules add
* `Engine.process_of_trail_error`, `Engine.process_of_trail_ok`: a cycle from its trail on
* `Engine.history_process`: no history, and repeated cycles
-/

namespace FuzzyInference

open Scalar Checked

variable {α : Type}

/-! ## §1 Trails -/

section Trails

variable [Scalar α]

namespace RuleBlock

theorem degrees_deactivate (vs : Variables α) (b : RuleBlock α) : b.deactivate.degrees vs = b.degrees vs := by
  have hfrom : ∀ (rs : List (Rule α)) (n : Nat),
      degreesFrom vs b.deactivate n (rs.map Rule.deactivate) = degreesFrom vs b n rs := by
    intro rs
    induction rs with
    | nil => exact fun _ => rfl
    | cons r rs ih =>
      intro n
      rw [List.map_cons, degreesFrom_cons, degreesFrom_cons, ih]
      rfl
  exact hfrom b.rules 0

theorem allAdditions_deactivate (vs : Variables α) (b : RuleBlock α) (ps : List (α × Nat)) :
    b.deactivate.allAdditions vs ps = b.allAdditions vs ps := by
  unfold allAdditions
  rw [mapM_congr fun p _ => ?_]
  have hrule : b.deactivate.rules[p.2]? = b.rules[p.2]?.map Rule.deactivate := List.getElem?_map ..
  unfold additionsOf
  rw [hrule]
  cases b.rules[p.2]? <;> rfl

/-- What a block adds does not depend on the degrees and marks that its rules had. -/
theorem fst_effect_deactivate (vs : Variables α) (b : RuleBlock α) :
    Prod.fst <$> b.deactivate.effect vs = Prod.fst <$> b.effect vs := by
  unfold effect
  rw [degrees_deactivate]
  have henabled : b.deactivate.enabled = b.enabled := rfl
  rw [henabled]
  split
  · cases b.degrees vs with
    | error e => rfl
    | ok ds =>
      have hfired : b.deactivate.fired ds = b.fired ds := rfl
      rw [ok_bind, ok_bind, hfired, allAdditions_deactivate]
      cases b.allAdditions vs (b.fired ds) <;> rfl
  · rfl

end RuleBlock

namespace Engine

theorem fst_effects_cons (vs : Variables α) (b : RuleBlock α) (rest : List (RuleBlock α)) :
    Prod.fst <$> effects vs (b :: rest) = (do
      let t ← Prod.fst <$> b.effect vs
      let u ← Prod.fst <$> effects (vs.receive t) rest
      return t ++ u) := by
  rw [effects]
  cases b.effect vs with
  | error e => rfl
  | ok p =>
    obtain ⟨t, b'⟩ := p
    simp only [ok_bind, map_ok]
    cases effects (vs.receive t) rest <;> rfl

theorem fst_effects_deactivate (vs : Variables α) (bs : List (RuleBlock α)) :
    Prod.fst <$> effects vs (bs.map RuleBlock.deactivate) = Prod.fst <$> effects vs bs := by
  induction bs generalizing vs with
  | nil => rfl
  | cons b rest ih =>
    rw [List.map_cons, fst_effects_cons, fst_effects_cons, b.fst_effect_deactivate]
    simp only [ih]

/-- The trail that the blocks leave in a cycle. -/
def trail (e : Engine α) : Except Error (Trail α) := Prod.fst <$> effects (clearOutputs e.store) e.blocks

end Engine

/-! ## §2 What a form tells -/

/-- No formula of the engine mentions an output, also none of a term that was removed. -/
structure Engine.HasLocalFormulas (e : Engine α) : Prop where
  inputs : ∀ v ∈ e.inputs, ∀ t ∈ v.terms ++ v.removedTerms, t.Ignores e.outputNames
  outputs : ∀ v ∈ e.outputs, ∀ t ∈ v.terms ++ v.removedTerms, t.Ignores e.outputNames

theorem Variables.signature_form (vs : Variables α) : vs.form.signature = vs.signature := by
  simp only [signature, form, List.map_map]
  rfl

namespace Engine

theorem refersWithin_form {e : Engine α} : e.form.RefersWithin ↔ e.RefersWithin := by
  have hsignature := e.store.signature_form
  constructor
  · intro h b hb
    refine RuleBlock.RefersWithin.of_signature_eq hsignature fun r hr hloaded => ?_
    obtain ⟨hantecedent, hconclusions⟩ :=
      h b.deactivate (List.mem_map_of_mem hb) r.deactivate (List.mem_map_of_mem hr) hloaded
    exact ⟨hantecedent, hconclusions⟩
  · intro h b hb
    obtain ⟨c, hc, rfl⟩ := List.mem_map.1 hb
    refine RuleBlock.RefersWithin.of_signature_eq hsignature.symm fun r hr hloaded => ?_
    obtain ⟨s, hs, rfl⟩ := List.mem_map.1 hr
    obtain ⟨hantecedent, hconclusions⟩ := h c hc s hs hloaded
    exact ⟨hantecedent, hconclusions⟩

theorem outputNames_form (e : Engine α) : e.form.outputNames = e.outputNames := by
  simp only [outputNames, outputs, form, Variables.form, List.map_map]
  rfl

theorem hasLocalFormulas_form {e : Engine α} : e.form.HasLocalFormulas ↔ e.HasLocalFormulas := by
  constructor
  · rintro ⟨hinputs, houtputs⟩
    rw [outputNames_form] at hinputs houtputs
    exact ⟨hinputs, fun v hv => houtputs v.form (List.mem_map_of_mem hv)⟩
  · rintro ⟨hinputs, houtputs⟩
    constructor
    · rw [outputNames_form]
      exact hinputs
    · rw [outputNames_form]
      intro v hv
      obtain ⟨w, hw, rfl⟩ := List.mem_map.1 hv
      exact houtputs w hw

end Engine

omit [Scalar α] in
theorem Variables.surroundings_clearOutputs (vs : Variables α) :
    (Engine.clearOutputs vs).surroundings = vs.surroundings := by
  simp only [surroundings, Engine.clearOutputs, List.map_map]
  rfl

namespace Engine

/-- What terms see of the engine that mention no output. -/
def inputsAround (e : Engine α) : Option (Surroundings α) := some e.store.surroundings.withoutOutputs

theorem inputsAround_eq_of_form_eq {e f : Engine α} (h : e.form = f.form) :
    e.inputsAround = f.inputsAround := by
  have hinputs : e.store.inputs = f.store.inputs := congrArg (fun g => g.store.inputs) h
  simp only [inputsAround, Variables.surroundings, Surroundings.withoutOutputs, hinputs]

theorem membership_eq_inputsAround {e : Engine α} {t : Term α} (h : t.Ignores e.outputNames) :
    t.membership (some e.store.surroundings) = t.membership e.inputsAround := by
  apply Term.membership_withoutOutputs
  have hnames : e.store.surroundings.outputs.map Prod.fst = e.outputNames := by
    simp only [Variables.surroundings, List.map_map]
    rfl
  rw [hnames]
  exact h

/-- No rule can tell engines of the same form apart, once the fuzzy outputs are cleared. -/
theorem alike_of_form_eq {e f : Engine α} (same : e.form = f.form) (local_e : e.HasLocalFormulas) :
    (clearOutputs e.store).Alike (clearOutputs f.store) where
  inputs := congrArg (fun g => g.store.inputs) same
  outputs := by
    have houtputs : ∀ g : Engine α,
        (clearOutputs g.store).outputs.map OutputVariable.unvalued = g.form.store.outputs := by
      intro g
      simp only [clearOutputs, List.map_map]
      rfl
    rw [houtputs, houtputs, same]
  membership := by
    have local_f : f.HasLocalFormulas := hasLocalFormulas_form.1 (same ▸ hasLocalFormulas_form.2 local_e)
    have hinputs : e.inputs = f.inputs := congrArg (fun g => g.store.inputs) same
    intro v hv t ht x
    have hv' : v ∈ f.inputs := hinputs ▸ hv
    -- a term that mentions no output sees the inputs alone, and these are the same
    rw [Variables.surroundings_clearOutputs, Variables.surroundings_clearOutputs,
      membership_eq_inputsAround (local_e.inputs v hv t ht), inputsAround_eq_of_form_eq same,
      ← membership_eq_inputsAround (local_f.inputs v hv' t ht)]

theorem refersWithin_clearOutputs {e : Engine α} (h : e.RefersWithin) :
    ∀ b ∈ e.blocks, b.RefersWithin (clearOutputs e.store) := by
  intro b hb
  refine (h b hb).of_signature_eq ?_
  simp only [Variables.signature, clearOutputs, List.map_map]
  rfl

/-- The trail of a cycle depends on the form of the engine. -/
theorem trail_eq_of_form_eq {e f : Engine α} (same : e.form = f.form) (within : e.RefersWithin)
    (formulas : e.HasLocalFormulas) : e.trail = f.trail := by
  have halike := alike_of_form_eq same formulas
  have hblocks : e.blocks.map RuleBlock.deactivate = f.blocks.map RuleBlock.deactivate :=
    congrArg Engine.blocks same
  calc e.trail = Prod.fst <$> effects (clearOutputs f.store) e.blocks := by
        rw [trail, halike.effects_eq (refersWithin_clearOutputs within)]
    _ = Prod.fst <$> effects (clearOutputs f.store) (e.blocks.map RuleBlock.deactivate) :=
        (fst_effects_deactivate _ _).symm
    _ = f.trail := by rw [hblocks, fst_effects_deactivate, trail]

end Engine

/-! ## §3 Activated terms -/

namespace Variables

theorem term_of_mem_additions {vs : Variables α} {implication : Option TNorm} {degree : α}
    {p : Proposition} {t : Trail α} (h : vs.additions implication degree p = .ok t) :
    ∀ a ∈ t, ∃ q, vs.term? q = some a.2.term := by
  intro a ha
  unfold additions at h
  split at h
  · cases h
    cases ha
  · obtain ⟨d, -, h⟩ := bind_eq_ok_iff.1 h
    cases h
    obtain ⟨u, hu, rfl⟩ := Option.map_eq_some_iff.1 (Option.mem_toList.1 ha)
    exact ⟨p, hu⟩

end Variables

theorem RuleBlock.term_of_mem_effect {vs : Variables α} {b : RuleBlock α} {t : Trail α}
    {settled : RuleBlock α} (h : b.effect vs = .ok (t, settled)) :
    ∀ a ∈ t, ∃ q, vs.term? q = some a.2.term := by
  intro a ha
  unfold effect at h
  split at h
  · obtain ⟨ds, -, h⟩ := bind_eq_ok_iff.1 h
    obtain ⟨t', hall, h⟩ := bind_eq_ok_iff.1 h
    cases h
    -- the rule that fired, and its conclusion
    obtain ⟨ts, hts, rfl⟩ := map_eq_ok_iff.1 hall
    obtain ⟨u, hu, ha⟩ := List.mem_flatten.1 ha
    obtain ⟨p, -, hp⟩ := exists_of_mem_mapM hts hu
    unfold additionsOf at hp
    split at hp
    · obtain ⟨us, hus, rfl⟩ := map_eq_ok_iff.1 hp
      obtain ⟨w, hw, ha⟩ := List.mem_flatten.1 ha
      obtain ⟨q, -, hq⟩ := exists_of_mem_mapM hus hw
      exact Variables.term_of_mem_additions hq a ha
    · cases hp
      cases ha
  · cases h
    cases ha

namespace Engine

/-- Only terms that conclusions can name are activated. -/
theorem term_of_mem_effects {vs : Variables α} {bs settled : List (RuleBlock α)} {t : Trail α}
    (h : effects vs bs = .ok (t, settled)) : ∀ a ∈ t, ∃ q, vs.term? q = some a.2.term := by
  induction bs generalizing vs t settled with
  | nil =>
    cases h
    exact fun a ha => absurd ha List.not_mem_nil
  | cons b rest ih =>
    obtain ⟨⟨own, b'⟩, hb, h⟩ := bind_eq_ok_iff.1 h
    obtain ⟨⟨u, rest'⟩, hrest, h⟩ := bind_eq_ok_iff.1 h
    cases h
    intro a ha
    rcases List.mem_append.1 ha with ha | ha
    · exact RuleBlock.term_of_mem_effect hb a ha
    · obtain ⟨q, hq⟩ := ih hrest a ha
      rw [Variables.term?_receive] at hq
      exact ⟨q, hq⟩

/-- The terms in the trail of a cycle belong to outputs of the engine. -/
theorem term_of_mem_trail {e : Engine α} (within : e.RefersWithin) (formulas : e.HasLocalFormulas)
    {t : Trail α} (h : e.trail = .ok t) :
    ∀ a ∈ t, ∃ v ∈ e.outputs, a.2.term ∈ v.terms ++ v.removedTerms := by
  -- an engine of the same form without removed variables leaves the same trail
  let f : Engine α := { e with store := { e.store with removedInputs := [], removedOutputs := [] } }
  have hsame : e.form = f.form := rfl
  rw [trail_eq_of_form_eq hsame within formulas] at h
  obtain ⟨⟨t', settled⟩, heffects, rfl⟩ := map_eq_ok_iff.1 h
  intro a ha
  obtain ⟨q, hq⟩ := term_of_mem_effects heffects a ha
  obtain ⟨w, hw, hq⟩ := Option.bind_eq_some_iff.1 hq
  obtain ⟨r, -, hr⟩ := Option.bind_eq_some_iff.1 hq
  -- with nothing removed, an output that is found is one of the engine
  have hmem : w ∈ (clearOutputs f.store).outputs ++ [] := List.mem_of_find?_eq_some hw
  rw [List.append_nil] at hmem
  obtain ⟨v, hv, rfl⟩ := List.mem_map.1 hmem
  exact ⟨v, hv, List.mem_of_find?_eq_some hr⟩

end Engine

/-! ## §4 Outputs one by one -/

/-- Outputs defuzzified in the same surroundings, up to the first one that is refused. -/
def OutputVariable.defuzzifyAll (around : Option (Surroundings α)) :
    List (OutputVariable α) → List (OutputVariable α) × Option Error
  | [] => ([], none)
  | v :: rest =>
    match v.defuzzify around with
    | (w, .error e) => (w :: rest, some e)
    | (w, .ok _) => (w :: (defuzzifyAll around rest).1, (defuzzifyAll around rest).2)

namespace Engine

/-- Where no activated term mentions an output, the outputs are defuzzified independently. -/
theorem defuzzifyFrom_eq_defuzzifyAll (vs : Variables α) {before rest : List (OutputVariable α)}
    (h : ∀ v ∈ rest, ∀ a ∈ v.fuzzyOutput.terms, a.term.Ignores ((before ++ rest).map fun w => w.name)) :
    (defuzzifyFrom vs before rest).error =
        (OutputVariable.defuzzifyAll (some vs.surroundings.withoutOutputs) rest).2 ∧
      (defuzzifyFrom vs before rest).state.outputs =
        before ++ (OutputVariable.defuzzifyAll (some vs.surroundings.withoutOutputs) rest).1 := by
  induction rest generalizing before with
  | nil => simp [defuzzifyFrom, OutputVariable.defuzzifyAll, Outcome.done]
  | cons v rest ih =>
    have haround : v.defuzzify (surroundingsAt vs before v rest) =
        v.defuzzify (some vs.surroundings.withoutOutputs) := by
      apply OutputVariable.defuzzify_congr
      intro a ha
      refine Term.membership_withoutOutputs (s := ({ vs with outputs := before ++ v :: rest } :
        Variables α).surroundings) ?_
      have hignores := h v List.mem_cons_self a ha
      simpa only [Variables.surroundings, List.map_map, Function.comp_def] using hignores
    unfold OutputVariable.defuzzifyAll
    rw [← haround]
    cases hdefuzzify : v.defuzzify (surroundingsAt vs before v rest) with
    | mk w outcome =>
      have hw : (v.defuzzify (surroundingsAt vs before v rest)).1 = w := by rw [hdefuzzify]
      cases outcome with
      | error e =>
        obtain ⟨herror, hstate⟩ := defuzzifyFrom_cons_of_error (congrArg Prod.snd hdefuzzify)
        rw [herror, hstate, hw]
        exact ⟨rfl, rfl⟩
      | ok u =>
        obtain ⟨herror, hstate⟩ := defuzzifyFrom_cons_of_ok (congrArg Prod.snd hdefuzzify)
        -- the output that was defuzzified keeps its name
        obtain ⟨x, hx⟩ := v.defuzzify_fst (surroundingsAt vs before v rest)
        have hname : w.name = v.name := by
          rw [← hw, hx]
          rfl
        have hnames : ((before ++ [w]) ++ rest).map (fun w => w.name) =
            (before ++ v :: rest).map fun w => w.name := by
          simp [hname]
        obtain ⟨herrors, houtputs⟩ := @ih (before ++ [w]) fun u hu => by
          rw [hnames]
          exact h u (List.mem_cons_of_mem _ hu)
        rw [herror, hstate, hw, herrors, houtputs, List.append_assoc]
        exact ⟨rfl, rfl⟩

/-- The outputs of an engine when its blocks left a trail. -/
def received (e : Engine α) (t : Trail α) : List (OutputVariable α) :=
  ((clearOutputs e.store).receive t).outputs

omit [Scalar α] in
/-- What an output holds is what it received. -/
theorem terms_of_mem_received {e : Engine α} {t : Trail α} {v : OutputVariable α}
    (h : v ∈ e.received t) : v.fuzzyOutput.terms = t.on v.id := by
  obtain ⟨w, hw, rfl⟩ := List.mem_map.1 h
  obtain ⟨u, hu, rfl⟩ := List.mem_map.1 hw
  rfl

/-- A cycle whose blocks are stopped leaves the values of the outputs. -/
theorem process_of_trail_error {e : Engine α} {err : Error} (h : e.trail = .error err) :
    e.process.error = some err ∧
      e.process.state.outputs.map (fun v => v.value) = e.outputs.map fun v => v.value := by
  have hinfer : e.infer.error = some err := by
    rw [Outcome.error_eq_some_iff, value_infer]
    rw [trail] at h
    rw [map_eq_error_iff.1 h]
    rfl
  obtain ⟨herror, hstate⟩ := process_of_infer_error hinfer
  refine ⟨herror, ?_⟩
  have hframe := congrArg (fun vs => vs.outputs.map fun v => v.value)
    (frame_activateBlocks e.blocks (clearOutputs e.store)).1
  simp only [Variables.unfired, clearOutputs, List.map_map] at hframe
  rw [hstate]
  exact hframe

/-- A cycle whose blocks leave a trail defuzzifies the outputs that received it, each for itself. -/
theorem process_of_trail_ok {e : Engine α} (within : e.RefersWithin) (formulas : e.HasLocalFormulas)
    {t : Trail α} (h : e.trail = .ok t) :
    e.process.error = (OutputVariable.defuzzifyAll e.inputsAround (e.received t)).2 ∧
      e.process.state.outputs = (OutputVariable.defuzzifyAll e.inputsAround (e.received t)).1 := by
  obtain ⟨⟨t', blocks⟩, heffects, rfl⟩ := map_eq_ok_iff.1 h
  have hvalue : e.infer.value =
      .ok { e with store := (clearOutputs e.store).receive t', blocks } := by
    rw [value_infer, heffects]
    rfl
  obtain ⟨hinfer, hstore⟩ := Outcome.value_eq_ok_iff.1 hvalue
  obtain ⟨herror, hstate⟩ := process_of_infer_done hinfer
  obtain ⟨hconclude, s, hs⟩ := conclude_eq e.infer.state
  have hnames : (e.received t').map (fun w => w.name) = e.outputNames := by
    simp only [received, Variables.receive, clearOutputs, List.map_map]
    rfl
  have hignores : ∀ v ∈ e.received t', ∀ a ∈ v.fuzzyOutput.terms,
      a.term.Ignores (([] ++ e.received t').map fun w : OutputVariable α => w.name) := by
    intro v hv a ha
    rw [terms_of_mem_received hv] at ha
    obtain ⟨p, hp, rfl⟩ := List.mem_map.1 ha
    obtain ⟨w, hw, hterm⟩ := term_of_mem_trail within formulas h p (List.mem_filter.1 hp).1
    rw [List.nil_append, hnames]
    exact formulas.outputs w hw p.2.term hterm
  obtain ⟨herrors, houtputs⟩ :=
    defuzzifyFrom_eq_defuzzifyAll ((clearOutputs e.store).receive t') hignores
  have haround : some ((clearOutputs e.store).receive t').surroundings.withoutOutputs = e.inputsAround := by
    rw [Variables.surroundings_receive, Variables.surroundings_clearOutputs]
    rfl
  rw [haround] at herrors houtputs
  rw [herror, hstate, hconclude, hs, hstore]
  exact ⟨herrors, houtputs⟩

end Engine

/-! ## §5 One output in two cycles -/

namespace OutputVariable

/-- What a cycle computes for an output. -/
def result (v : OutputVariable α) : α × Aggregated α := (v.value, v.fuzzyOutput)

theorem prepare_eq_of_unvalued_eq {v w : OutputVariable α} (h : v.unvalued = w.unvalued) :
    ∃ x y, w.prepare = { v.prepare with value := x, previousValue := y } := by
  refine ⟨w.prepare.value, w.prepare.previousValue, ?_⟩
  obtain ⟨⟨_, _, _, _, _, _, _, _, _, _⟩, ⟨_, _, _, _, _⟩, _, _, _, _⟩ := v
  obtain ⟨⟨_, _, _, _, _, _, _, _, _, _⟩, ⟨_, _, _, _, _⟩, _, _, _, _⟩ := w
  simp only [unvalued, OutputVariable.mk.injEq, Variable.mk.injEq, Aggregated.mk.injEq] at h
  simp only [prepare, OutputVariable.mk.injEq, Variable.mk.injEq, Aggregated.mk.injEq]
  simp [h]

/-- An output that does not lock its previous value computes its value without its old ones. -/
theorem rawValue_of_unlocked {v : OutputVariable α} (unlocked : v.lockPreviousValue = false) (x y : α)
    (around : Option (Surroundings α)) :
    ({ v with value := x, previousValue := y } : OutputVariable α).rawValue around = v.rawValue around := by
  have hidle : ({ v with value := x, previousValue := y } : OutputVariable α).idleValue = v.idleValue := by
    simp [idleValue, unlocked]
  unfold rawValue
  rw [hidle]
  rfl

theorem defuzzify_of_unvalued_eq {v w : OutputVariable α} (h : v.unvalued = w.unvalued)
    (unlocked : v.lockPreviousValue = false) (around : Option (Surroundings α)) :
    (v.defuzzify around).2 = (w.defuzzify around).2 ∧
      ((v.defuzzify around).2 = .ok () →
        (v.defuzzify around).1.result = (w.defuzzify around).1.result) := by
  obtain ⟨x, y, hw⟩ := prepare_eq_of_unvalued_eq h
  have hraw : w.prepare.rawValue around = v.prepare.rawValue around := by
    rw [hw]
    exact rawValue_of_unlocked (v := v.prepare) unlocked x y around
  cases hv : v.prepare.rawValue around with
  | error e =>
    rw [defuzzify_of_error hv, defuzzify_of_error (hraw.trans hv)]
    exact ⟨rfl, fun hok => nomatch hok⟩
  | ok z =>
    rw [defuzzify_of_ok hv, defuzzify_of_ok (hraw.trans hv), hw]
    exact ⟨rfl, fun _ => rfl⟩

/-- Outputs that rules cannot tell apart get the same results. -/
theorem defuzzifyAll_of_unvalued_eq {vs ws : List (OutputVariable α)}
    (h : vs.map unvalued = ws.map unvalued) (unlocked : ∀ v ∈ vs, v.lockPreviousValue = false)
    (around : Option (Surroundings α)) :
    (defuzzifyAll around vs).2 = (defuzzifyAll around ws).2 ∧
      ((defuzzifyAll around vs).2 = none →
        (defuzzifyAll around vs).1.map result = (defuzzifyAll around ws).1.map result) := by
  -- the lists run in step, and the first refusal ends both
  induction vs generalizing ws with
  | nil =>
    cases ws with
    | nil => exact ⟨rfl, fun _ => rfl⟩
    | cons w ws => cases h
  | cons v vs ih =>
    cases ws with
    | nil => cases h
    | cons w ws =>
      obtain ⟨hhead, htail⟩ := List.cons.inj h
      obtain ⟨hresult, hvalue⟩ := defuzzify_of_unvalued_eq hhead (unlocked v List.mem_cons_self) around
      obtain ⟨hrest, hvalues⟩ := ih htail fun u hu => unlocked u (List.mem_cons_of_mem _ hu)
      unfold defuzzifyAll
      generalize v.defuzzify around = p at hresult hvalue ⊢
      generalize w.defuzzify around = q at hresult hvalue ⊢
      obtain ⟨v', o⟩ := p
      obtain ⟨w', o'⟩ := q
      cases hresult
      cases o with
      | error e => exact ⟨rfl, fun hnone => nomatch hnone⟩
      | ok u => exact ⟨hrest, fun hnone => congrArg₂ List.cons (hvalue rfl) (hvalues hnone)⟩

/-- What every output keeps when it is defuzzified, all of them keep. -/
theorem map_defuzzifyAll {β : Type} {f : OutputVariable α → β} {around : Option (Surroundings α)}
    (hf : ∀ v, f (defuzzify v around).1 = f v) (vs : List (OutputVariable α)) :
    (defuzzifyAll around vs).1.map f = vs.map f := by
  induction vs with
  | nil => rfl
  | cons v rest ih =>
    have hv := hf v
    unfold defuzzifyAll
    generalize v.defuzzify around = p at hv ⊢
    obtain ⟨w, o⟩ := p
    cases o with
    | error e => exact congrArg (· :: rest.map f) hv
    | ok u => exact congrArg₂ List.cons hv ih

end OutputVariable

end Trails

/-! ## §6 Repeated cycles -/

namespace OutputVariable

variable {v : OutputVariable Float}

theorem isNaN_settleValue (h : v.minimum ≤ v.maximum) {x : Float} (hx : isNaN x = false) :
    isNaN (v.settleValue x) = false := by
  unfold settleValue
  split
  · exact isNaN_bound h hx
  · exact hx

/-- A value that an output has taken over is taken over as it is. -/
theorem settleValue_settleValue (h : v.minimum ≤ v.maximum) (x : Float) :
    v.settleValue (v.settleValue x) = v.settleValue x := by
  -- a value is brought into the range only where the range is locked and the value is a number
  by_cases hlock : (v.lockValueInRange && !isNaN x) = true
  · have hx : isNaN x = false := by
      simpa using (Bool.and_eq_true_iff.1 hlock).2
    have hsettled := isNaN_settleValue h hx
    have hrange : v.lockValueInRange = true := (Bool.and_eq_true_iff.1 hlock).1
    simp only [settleValue, hrange, hx, Bool.not_false, Bool.and_self, if_true] at hsettled ⊢
    rw [hsettled]
    exact bound_bound h
  · have hkeep : v.settleValue x = x := by rw [settleValue, if_neg hlock]
    rw [hkeep, hkeep]

/-- An output that no rule reaches takes the same value again: its previous value is then the value that it
took, or where this is `nan`, still the one from which it took it. -/
theorem settleValue_idleValue (h : v.minimum ≤ v.maximum) {x previous : Float}
    (hx : x = v.settleValue v.idleValue) (hprevious : previous = if isNaN x then v.previousValue else x) :
    v.settleValue ({ v with previousValue := previous } : OutputVariable Float).idleValue = x := by
  cases hnan : isNaN x with
  | true =>
    rw [hnan, if_pos rfl] at hprevious
    rw [hprevious, hx]
  | false =>
    rw [hnan, if_neg Bool.false_ne_true] at hprevious
    -- a locked output falls back on the value it took, another one on its default
    rcases Bool.eq_false_or_eq_true v.lockPreviousValue with hlock | hlock
    · have hidle : ({ v with previousValue := previous } : OutputVariable Float).idleValue = x := by
        simp [idleValue, hlock, hprevious, hnan]
      rw [hidle, hx, settleValue_settleValue h]
    · have hidle : ({ v with previousValue := previous } : OutputVariable Float).idleValue = v.idleValue := by
        simp [idleValue, hlock]
      rw [hidle, hx]

theorem prepare_prepare (v : OutputVariable Float) : v.prepare.prepare = v.prepare := by
  have hprevious : v.prepare.prepare.previousValue = v.prepare.previousValue := by
    cases hnan : isNaN v.value <;> simp [prepare, hnan]
  exact congrArg (fun x => { v.prepare with previousValue := x }) hprevious

/-- An output that was defuzzified, or refused, is so again in the same surroundings, to the same value. -/
theorem defuzzify_defuzzify (h : v.minimum ≤ v.maximum) (around : Option (Surroundings Float)) :
    ((v.defuzzify around).1.defuzzify around).2 = (v.defuzzify around).2 ∧
      ((v.defuzzify around).1.defuzzify around).1.value = (v.defuzzify around).1.value := by
  cases hraw : v.prepare.rawValue around with
  | error e =>
    have hagain : v.prepare.prepare.rawValue around = .error e := by rw [prepare_prepare, hraw]
    rw [defuzzify_of_error hraw, defuzzify_of_error hagain]
    exact ⟨rfl, rfl⟩
  | ok z =>
    let x := v.prepare.settleValue z
    let w : OutputVariable Float := { v.prepare with value := x }
    have hfirst : v.defuzzify around = (w, .ok ()) := defuzzify_of_ok hraw
    -- the second time the raw value may differ, but not what the output takes over of it
    have hsecond : ∃ y, w.prepare.rawValue around = .ok y ∧ w.prepare.settleValue y = x := by
      unfold rawValue at hraw
      split at hraw
      next hactive =>
        refine ⟨z, ?_, rfl⟩
        have hactive' : w.prepare.isActive = true := hactive
        unfold rawValue
        rw [if_pos hactive']
        exact hraw
      next hidle =>
        have hidle' : ¬w.prepare.isActive = true := hidle
        have hz : v.prepare.idleValue = z := Except.ok.inj hraw
        refine ⟨w.prepare.idleValue, by rw [rawValue, if_neg hidle'], ?_⟩
        have hx : x = v.prepare.settleValue v.prepare.idleValue := by rw [hz]
        exact settleValue_idleValue (v := v.prepare) h hx rfl
    obtain ⟨y, hy, hvalue⟩ := hsecond
    rw [hfirst, defuzzify_of_ok hy]
    exact ⟨rfl, hvalue⟩

/-- Outputs that were defuzzified one by one are so again, up to the same one, to the same values. -/
theorem defuzzifyAll_defuzzifyAll {vs : List (OutputVariable Float)}
    (h : ∀ v ∈ vs, v.minimum ≤ v.maximum) (around : Option (Surroundings Float)) :
    (defuzzifyAll around (defuzzifyAll around vs).1).2 = (defuzzifyAll around vs).2 ∧
      (defuzzifyAll around (defuzzifyAll around vs).1).1.map (fun v => v.value) =
        (defuzzifyAll around vs).1.map fun v => v.value := by
  induction vs with
  | nil => exact ⟨rfl, rfl⟩
  | cons v vs ih =>
    obtain ⟨hagain, hvalue⟩ := defuzzify_defuzzify (h v List.mem_cons_self) around
    obtain ⟨hrest, hvalues⟩ := ih fun u hu => h u (List.mem_cons_of_mem _ hu)
    have hcons : ∀ (u : OutputVariable Float) (us : List (OutputVariable Float)),
        defuzzifyAll around (u :: us) = match (u.defuzzify around).2 with
          | .error e => ((u.defuzzify around).1 :: us, some e)
          | .ok _ => ((u.defuzzify around).1 :: (defuzzifyAll around us).1, (defuzzifyAll around us).2) := by
      intro u us
      rw [defuzzifyAll]
      rcases u.defuzzify around with ⟨w, _ | _⟩ <;> rfl
    rw [hcons v vs]
    cases ho : (v.defuzzify around).2 with
    | error e =>
      rw [ho] at hagain
      simp only [hcons, hagain, List.map_cons, hvalue, and_self]
    | ok u =>
      rw [ho] at hagain
      simp only [hcons, hagain, List.map_cons, hvalue, hrest, hvalues, and_self]

end OutputVariable

namespace Engine

/-- Whatever was defuzzified in a cycle receives the same trail again. -/
theorem received_process {e : Engine Float} (within : e.RefersWithin) (formulas : e.HasLocalFormulas)
    {t : Trail Float} (h : e.trail = .ok t) : e.process.state.received t = e.process.state.outputs := by
  have houtputs := (process_of_trail_ok within formulas h).2
  have hkept : (OutputVariable.defuzzifyAll e.inputsAround (e.received t)).1.map
      (fun v => (v.id, v.fuzzyOutput.terms)) =
      (e.received t).map fun v => (v.id, v.fuzzyOutput.terms) := by
    refine OutputVariable.map_defuzzifyAll (fun v => ?_) _
    obtain ⟨x, hx⟩ := v.defuzzify_fst e.inputsAround
    rw [hx]
    rfl
  rw [← houtputs] at hkept
  -- after the cycle every output holds its part of the trail already
  have hterms : ∀ v ∈ e.process.state.outputs, v.fuzzyOutput.terms = t.on v.id := by
    intro v hv
    have hmem := List.mem_map_of_mem (f := fun v : OutputVariable Float => (v.id, v.fuzzyOutput.terms)) hv
    rw [hkept] at hmem
    obtain ⟨w, hw, hwv⟩ := List.mem_map.1 hmem
    obtain ⟨hid, hterms⟩ := Prod.mk.inj hwv
    rw [← hterms, ← hid]
    exact terms_of_mem_received hw
  simp only [received, Variables.receive, clearOutputs, List.map_map]
  refine (List.map_congr_left fun v hv => ?_).trans (List.map_id _)
  have hv' := hterms v hv
  simp [OutputVariable.receive, OutputVariable.clearFuzzyOutput, Aggregated.clear, ← hv']

/-- Cycles have no history. Where rules refer only to variables of the engine and no formula mentions an
output, a cycle of an engine that locks no previous value is stopped by the same error in all states of the
same form, and computes the same values and fuzzy outputs. Where values are locked, but every range is in
order, a repeated cycle still ends like the first one and computes the same values. -/
theorem history_process (e : Engine Float) (within : e.RefersWithin) (formulas : e.HasLocalFormulas) :
    ((∀ v ∈ e.outputs, v.lockPreviousValue = false) → ∀ f : Engine Float, e.form = f.form →
      e.process.error = f.process.error ∧
        (e.process.error = none →
          e.process.state.outputs.map OutputVariable.result =
            f.process.state.outputs.map OutputVariable.result)) ∧
    ((∀ v ∈ e.outputs, v.minimum ≤ v.maximum) →
      e.process.state.process.error = e.process.error ∧
        e.process.state.process.state.outputs.map (fun v => v.value) =
          e.process.state.outputs.map fun v => v.value) := by
  have hothers : ∀ f : Engine Float, e.form = f.form →
      f.RefersWithin ∧ f.HasLocalFormulas ∧ f.trail = e.trail ∧ f.inputsAround = e.inputsAround := by
    intro f same
    refine ⟨refersWithin_form.1 (same ▸ refersWithin_form.2 within),
      hasLocalFormulas_form.1 (same ▸ hasLocalFormulas_form.2 formulas), ?_, ?_⟩
    · exact (trail_eq_of_form_eq same within formulas).symm
    · exact (inputsAround_eq_of_form_eq same).symm
  constructor
  -- two states of one form leave the same trail, and then differ only in what no output reads
  · intro unlocked f same
    obtain ⟨within_f, formulas_f, htrail, haround⟩ := hothers f same
    cases ht : e.trail with
    | error err =>
      have herror := (process_of_trail_error ht).1
      have herror_f := (process_of_trail_error (htrail.trans ht)).1
      rw [herror, herror_f]
      exact ⟨rfl, fun hnone => nomatch hnone⟩
    | ok t =>
      obtain ⟨herror, houtputs⟩ := process_of_trail_ok within formulas ht
      obtain ⟨herror_f, houtputs_f⟩ := process_of_trail_ok within_f formulas_f (htrail.trans ht)
      have hunvalued : (e.received t).map OutputVariable.unvalued =
          (f.received t).map OutputVariable.unvalued :=
        ((alike_of_form_eq same formulas).receive t).outputs
      have hunlocked : ∀ v ∈ e.received t, v.lockPreviousValue = false := by
        intro v hv
        obtain ⟨w, hw, rfl⟩ := List.mem_map.1 hv
        obtain ⟨u, hu, rfl⟩ := List.mem_map.1 hw
        exact unlocked u hu
      rw [herror, herror_f, houtputs, houtputs_f, haround]
      exact OutputVariable.defuzzifyAll_of_unvalued_eq hunvalued hunlocked e.inputsAround
  -- the state after a cycle has the form of the one before, so that the second cycle leaves the same trail
  · intro ranges
    obtain ⟨within', formulas', htrail, haround⟩ := hothers e.process.state e.form_process.symm
    cases ht : e.trail with
    | error err =>
      obtain ⟨herror, -⟩ := process_of_trail_error ht
      obtain ⟨herror', hvalues⟩ := process_of_trail_error (htrail.trans ht)
      exact ⟨herror'.trans herror.symm, hvalues⟩
    | ok t =>
      obtain ⟨herror, houtputs⟩ := process_of_trail_ok within formulas ht
      obtain ⟨herror', houtputs'⟩ := process_of_trail_ok within' formulas' (htrail.trans ht)
      have hranges : ∀ v ∈ e.received t, v.minimum ≤ v.maximum := by
        intro v hv
        obtain ⟨w, hw, rfl⟩ := List.mem_map.1 hv
        obtain ⟨u, hu, rfl⟩ := List.mem_map.1 hw
        exact ranges u hu
      rw [haround, received_process within formulas ht, houtputs] at herror' houtputs'
      rw [herror', houtputs', herror, houtputs]
      exact OutputVariable.defuzzifyAll_defuzzifyAll hranges e.inputsAround

/-- The relay before and after a cycle: values, fuzzy outputs and marks differ, the next cycle does not. -/
theorem history_process_relay :
    (relay.RefersWithin ∧ relay.HasLocalFormulas ∧ (∀ v ∈ relay.outputs, v.lockPreviousValue = false) ∧
      (∀ v ∈ relay.outputs, v.minimum ≤ v.maximum) ∧ relay.form = relay.process.state.form ∧
      relay.process.error = none) ∧
    relay.process.state.outputs.map OutputVariable.result =
      relay.process.state.process.state.outputs.map OutputVariable.result ∧
    relay.process.state.process.error = relay.process.error := by
  have formulas : relay.HasLocalFormulas := by
    constructor
    · intro v hv t ht
      cases List.mem_singleton.1 hv
      cases ht
    · intro v hv t ht n hn
      cases List.mem_singleton.1 hv
      rcases List.mem_pair.1 ht with rfl | rfl <;> cases hn
  have unlocked : ∀ v ∈ relay.outputs, v.lockPreviousValue = false := by
    intro v hv
    cases List.mem_singleton.1 hv
    rfl
  have ranges : ∀ v ∈ relay.outputs, v.minimum ≤ v.maximum := by
    intro v hv
    cases List.mem_singleton.1 hv
    decide +kernel
  have completed : relay.process.error = none := by decide +kernel
  have same : relay.form = relay.process.state.form := relay.form_process.symm
  obtain ⟨hstates, hrepeated⟩ := history_process relay refersWithin_relay formulas
  exact ⟨⟨refersWithin_relay, formulas, unlocked, ranges, same, completed⟩,
    (hstates unlocked _ same).2 completed, (hrepeated ranges).1⟩

end Engine

end FuzzyInference
