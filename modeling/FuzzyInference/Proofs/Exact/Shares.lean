import FuzzyInference.Proofs.Choice
import FuzzyInference.Proofs.Cycle
import FuzzyInference.Proofs.Exact.Averages
import FuzzyInference.Proofs.Exact.Unordered

/-!
# Shares of a total

A proportional method divides the degrees of the rules that fire by their total. Where conclusions have no hedges,
the degrees of the activated terms are divided by the same number, and a weighted average does not change. An engine
with a single enabled block then computes the same outputs as under the general method, unless a quotient is within
the tolerance of zero, so that a rule fires under one of the methods only.

The plan of this module:

* what rules add whose conclusions have no hedges;
* the only enabled block of an engine;
* outputs that are defuzzified while the inputs stay;
* the rules that fire under either method, and the theorem.

## Main statements

* `RuleBlock.exists_allAdditions`: the terms that a block activates
* `Engine.effects_of_others_disabled`: what a single block adds
* `RuleBlock.exists_fired`: degrees and shares
* `Exact.average_insensitive`: averages
-/

namespace FuzzyInference

open Scalar Exact Checked

/-! ## §1 Conclusions without hedges -/

section Plain

variable {α : Type} [Scalar α]

/-- The terms of an output that conclusions activate. -/
def Rule.concluded (vs : Variables α) (id : Nat) (ps : List Proposition) : List (Term α) :=
  (ps.filter fun p => vs.isEnabled p.subject && p.subject.id == id).filterMap vs.term?

/-- A conclusion without hedges activates its term to the degree of the rule. -/
theorem Variables.additions_of_plain (vs : Variables α) (implication : Option TNorm) (d : α) {p : Proposition}
    (hp : p.hedges = []) :
    ∃ t, vs.additions implication d p = .ok t ∧
      ∀ id, t.on id = (Rule.concluded vs id [p]).map fun u => ⟨u, d, implication⟩ := by
  unfold additions Rule.concluded
  rw [hp]
  cases henabled : vs.isEnabled p.subject with
  | false => exact ⟨[], rfl, fun id => by simp [henabled]⟩
  | true =>
    refine ⟨_, rfl, fun id => ?_⟩
    cases hterm : vs.term? p with
    | none => cases hid : p.subject.id == id <;> simp [henabled, hterm, hid]
    | some u => cases hid : p.subject.id == id <;> simp [henabled, hterm, hid]

theorem Rule.exists_additions (vs : Variables α) (implication : Option TNorm) (d : α) {ps : List Proposition}
    (hps : ∀ p ∈ ps, p.hedges = []) :
    ∃ t, additions vs implication d ps = .ok t ∧
      ∀ id, t.on id = (concluded vs id ps).map fun u => ⟨u, d, implication⟩ := by
  induction ps with
  | nil => exact ⟨[], rfl, fun id => rfl⟩
  | cons p ps ih =>
    obtain ⟨hp, hps⟩ := List.forall_mem_cons.1 hps
    obtain ⟨t, ht, hton⟩ := vs.additions_of_plain implication d hp
    obtain ⟨u, hu, huon⟩ := ih hps
    refine ⟨t ++ u, by rw [additions_cons, ht, ok_bind, hu]; rfl, fun id => ?_⟩
    have hcons : concluded vs id (p :: ps) = concluded vs id [p] ++ concluded vs id ps := by
      unfold concluded
      rw [← List.singleton_append, List.filter_append, List.filterMap_append]
    rw [Trail.on_append, hton, huon, hcons, List.map_append]

namespace RuleBlock

/-- No conclusion of the block has hedges. -/
def IsPlain (b : RuleBlock α) : Prop := ∀ r ∈ b.rules, ∀ p ∈ r.conclusions, p.hedges = []

/-- The terms of an output that rules activate when they fire with degrees. -/
def activatedBy (vs : Variables α) (b : RuleBlock α) (ps : List (α × Nat)) (id : Nat) : List (Activated α) :=
  ps.flatMap fun p =>
    (Rule.concluded vs id ((b.rules[p.2]?).elim [] Rule.conclusions)).map fun u => ⟨u, p.1, b.implication⟩

theorem exists_additionsOf (vs : Variables α) {b : RuleBlock α} (hb : b.IsPlain) (p : α × Nat) :
    ∃ t, b.additionsOf vs p = .ok t ∧ ∀ id, t.on id = b.activatedBy vs [p] id := by
  unfold additionsOf activatedBy
  simp only [List.flatMap_singleton]
  cases hr : b.rules[p.2]? with
  | none => exact ⟨[], rfl, fun id => rfl⟩
  | some r => exact Rule.exists_additions vs b.implication p.1 (hb r (List.mem_of_getElem? hr))

/-- Rules of a plain block always fire, and activate the terms of their conclusions. -/
theorem exists_allAdditions (vs : Variables α) {b : RuleBlock α} (hb : b.IsPlain) (ps : List (α × Nat)) :
    ∃ t, b.allAdditions vs ps = .ok t ∧ ∀ id, t.on id = b.activatedBy vs ps id := by
  induction ps with
  | nil => exact ⟨[], rfl, fun id => rfl⟩
  | cons p ps ih =>
    obtain ⟨t, ht, hton⟩ := exists_additionsOf vs hb p
    obtain ⟨u, hu, huon⟩ := ih
    refine ⟨t ++ u, by rw [allAdditions_cons, ht, ok_bind, hu]; rfl, fun id => ?_⟩
    rw [Trail.on_append, hton, huon]
    unfold activatedBy
    rw [← List.flatMap_append, List.singleton_append]

end RuleBlock

/-! ## §2 A single enabled block -/

namespace Engine

/-- The engine with another activation method in the block of an index. -/
def withMethod (e : Engine α) (k : Nat) (m : Activation α) : Engine α :=
  { e with blocks := e.blocks.modify k fun b => { b with activation := some m } }

omit [Scalar α] in
theorem getElem?_withMethod_self {e : Engine α} {k : Nat} {b : RuleBlock α} (h : e.blocks[k]? = some b)
    (m : Activation α) : (e.withMethod k m).blocks[k]? = some { b with activation := some m } := by
  simp [withMethod, h]

omit [Scalar α] in
theorem getElem?_withMethod_ne (e : Engine α) {j k : Nat} (h : j ≠ k) (m : Activation α) :
    (e.withMethod k m).blocks[j]? = e.blocks[j]? := by
  simp [withMethod, h.symm]

theorem effects_cons_of_ok {vs : Variables α} {b : RuleBlock α} {rest : List (RuleBlock α)}
    {p : Trail α × RuleBlock α} {q : Trail α × List (RuleBlock α)} (hp : b.effect vs = .ok p)
    (hq : effects (vs.receive p.1) rest = .ok q) : effects vs (b :: rest) = .ok (p.1 ++ q.1, p.2 :: q.2) :=
  bind_eq_ok_iff.2 ⟨p, hp, bind_eq_ok_iff.2 ⟨q, hq, rfl⟩⟩

/-- A disabled block adds nothing to what the blocks after it add. -/
theorem effects_cons_of_disabled {vs : Variables α} {b : RuleBlock α} {rest : List (RuleBlock α)}
    {q : Trail α × List (RuleBlock α)} (hb : b.enabled = false) (hq : effects vs rest = .ok q) :
    effects vs (b :: rest) = .ok (q.1, b :: q.2) := by
  have hskip : b.effect vs = .ok ([], b) := by
    rw [RuleBlock.effect, hb]
    rfl
  exact effects_cons_of_ok hskip (by rwa [Variables.receive_nil])

theorem effects_of_disabled (vs : Variables α) {bs : List (RuleBlock α)} (h : ∀ c ∈ bs, c.enabled = false) :
    effects vs bs = .ok ([], bs) := by
  induction bs with
  | nil => rfl
  | cons c bs ih =>
    obtain ⟨hc, hbs⟩ := List.forall_mem_cons.1 h
    exact effects_cons_of_disabled hc (ih hbs)

/-- Blocks of which only one is enabled add what this one adds. -/
theorem effects_of_others_disabled {vs : Variables α} {bs : List (RuleBlock α)} {k : Nat} {b : RuleBlock α}
    (hb : bs[k]? = some b) (hothers : ∀ j c, bs[j]? = some c → j ≠ k → c.enabled = false)
    {p : Trail α × RuleBlock α} (hp : b.effect vs = .ok p) : effects vs bs = .ok (p.1, bs.set k p.2) := by
  induction bs generalizing k with
  | nil => cases hb
  | cons c bs ih =>
    cases k with
    | zero =>
      cases hb
      -- all blocks after this one are among the others
      have hrest : ∀ c ∈ bs, c.enabled = false := by
        intro c hc
        obtain ⟨j, hj⟩ := List.mem_iff_getElem?.1 hc
        exact hothers (j + 1) c hj (Nat.succ_ne_zero j)
      rw [effects_cons_of_ok hp (effects_of_disabled _ hrest), List.append_nil]
      rfl
    | succ k =>
      have hrest := ih hb fun j d hd hj => hothers (j + 1) d hd fun h => hj (Nat.succ.inj h)
      exact effects_cons_of_disabled (hothers 0 c rfl (Nat.succ_ne_zero k).symm) hrest

/-! ## §3 Outputs while the inputs stay -/

/-- Outputs are defuzzified in their places, in surroundings that have the inputs as they are. -/
theorem exists_defuzzify_of_done {vs : Variables α} {before rest : List (OutputVariable α)}
    (h : (defuzzifyFrom vs before rest).error = none) :
    ∃ ws, (defuzzifyFrom vs before rest).state.outputs = before ++ ws ∧
      List.Forall₂ (fun v w => ∃ s, s.inputs = vs.surroundings.inputs ∧ v.defuzzify (some s) = (w, .ok ()))
        rest ws := by
  induction rest generalizing before with
  | nil => exact ⟨[], by simp [defuzzifyFrom, Outcome.done], .nil⟩
  | cons v rest ih =>
    cases hv : (v.defuzzify (surroundingsAt vs before v rest)).2 with
    | error err =>
      rw [(defuzzifyFrom_cons_of_error hv).1] at h
      cases h
    | ok n =>
      obtain ⟨herror, hstate⟩ := defuzzifyFrom_cons_of_ok hv
      rw [herror] at h
      obtain ⟨ws, hws, hall⟩ := ih h
      rw [hstate, hws, List.append_assoc]
      -- the surroundings of the outputs differ in the outputs before them only
      have haround : v.defuzzify (surroundingsAt vs before v rest) = (_, .ok ()) := Prod.ext rfl hv
      exact ⟨_, rfl, .cons ⟨({ vs with outputs := before ++ v :: rest } : Variables α).surroundings, rfl, haround⟩ hall⟩

/-- Outputs that have values for the inputs are defuzzified to the end. -/
theorem error_defuzzifyFrom_eq_none {vs : Variables α} {before rest : List (OutputVariable α)}
    (h : ∀ v ∈ rest, ∃ x, ∀ s, s.inputs = vs.surroundings.inputs → v.prepare.rawValue (some s) = .ok x) :
    (defuzzifyFrom vs before rest).error = none := by
  induction rest generalizing before with
  | nil => rfl
  | cons v rest ih =>
    obtain ⟨⟨x, hx⟩, hrest⟩ := List.forall_mem_cons.1 h
    have hv : v.prepare.rawValue (surroundingsAt vs before v rest) = .ok x := hx _ rfl
    rw [(defuzzifyFrom_cons_of_ok (congrArg Prod.snd (OutputVariable.defuzzify_of_ok hv))).1]
    exact ih hrest

end Engine

end Plain

/-! ## §4 Degrees and their shares -/

namespace Activation

variable {ds : List (Exact × Nat)} {xs : List (ℝ × Nat)}

theorem epsilon_le_of_fires (hds : ds.filter fires = ofReals xs) : ∀ p ∈ xs, epsilon ≤ p.1 := by
  intro p hp
  have hmem : ((finite p.1, p.2) : Exact × Nat) ∈ ds.filter fires := by
    rw [hds]
    exact List.mem_map.2 ⟨p, hp, rfl⟩
  have habove : above (finite p.1) 0.0 = true := (List.mem_filter.1 hmem).2
  rw [literal_zero, above_finite, zero_add] at habove
  exact of_decide_eq_true habove

theorem filter_fires_eq_self (h : ∀ p ∈ xs, epsilon ≤ p.1) : (ofReals xs).filter fires = ofReals xs := by
  rw [filter_fires_ofReals, exceeding, List.filter_eq_self.2 fun p hp => decide_eq_true (h p hp)]

/-- A proportional method divides by the total, which is not too small where any rule fires. -/
theorem select_proportional_ofReals (hds : ds.filter fires = ofReals xs) :
    proportional.select ds = ofReals (xs.map fun p => (((xs.map Prod.fst).sum)⁻¹ * p.1, p.2)) := by
  rw [select_proportional, hds, sumOfDegrees_ofReals, literal_zero, above_finite, zero_add]
  by_cases hne : xs = []
  -- where no rule fires, nothing is selected in either case
  · subst hne
    exact ite_self _
  · have hle := epsilon_le_sum hne (epsilon_le_of_fires hds)
    have htotal : (xs.map Prod.fst).sum ≠ 0 := (epsilon_pos.trans_le hle).ne'
    rw [if_pos (decide_eq_true hle)]
    unfold ofReals
    rw [List.map_map, List.map_map]
    refine List.map_congr_left fun p _ => ?_
    simp only [Function.comp_apply, finite_div htotal, inv_mul_eq_div]

end Activation

namespace RuleBlock

/-- Under both methods the same rules fire, in the same order, with degrees that have a factor in common. -/
theorem exists_fired {m : Activation Exact} (hm : m = .general ∨ m = .proportional) (b : RuleBlock Exact)
    {ds : List (Exact × Nat)} {xs : List (ℝ × Nat)} (hds : ds.filter Activation.fires = Activation.ofReals xs)
    (hshares : ∀ p ∈ xs, epsilon ≤ p.1 / (xs.map Prod.fst).sum) :
    ∃ c, (∀ p ∈ xs, epsilon ≤ c * p.1) ∧
      ({ b with activation := some m } : RuleBlock Exact).fired ds =
        Activation.ofReals (xs.map fun p => (c * p.1, p.2)) := by
  obtain ⟨c, hc, hselect⟩ : ∃ c, (∀ p ∈ xs, epsilon ≤ c * p.1) ∧
      m.select ds = Activation.ofReals (xs.map fun p => (c * p.1, p.2)) := by
    obtain rfl | rfl := hm
    · refine ⟨1, fun p hp => ?_, ?_⟩
      · rw [one_mul]
        exact Activation.epsilon_le_of_fires hds p hp
      · simp only [one_mul, Prod.mk.eta, List.map_id']
        exact hds
    · refine ⟨_, fun p hp => ?_, Activation.select_proportional_ofReals hds⟩
      rw [inv_mul_eq_div]
      exact hshares p hp
  refine ⟨c, hc, ?_⟩
  -- what is selected passes the test once more
  show (m.select ds).filter _ = _
  rw [hselect, Activation.filter_fires_eq_self]
  intro q hq
  obtain ⟨p, hp, rfl⟩ := List.mem_map.1 hq
  exact hc p hp

variable {b : RuleBlock Exact} {vs : Variables Exact} {xs : List (ℝ × Nat)} {id : Nat}

/-- Degrees with a common factor activate the same terms, to degrees with this factor. -/
theorem activatedBy_scale (c : ℝ) :
    b.activatedBy vs (Activation.ofReals (xs.map fun p => (c * p.1, p.2))) id =
      (b.activatedBy vs (Activation.ofReals xs) id).map (Activated.scale c) := by
  unfold activatedBy Activation.ofReals
  simp only [List.map_map, List.flatMap_map, List.map_flatMap, Function.comp_def, Activated.scale, finite_mul]

/-- What is activated has the degree of a rule, and is the term of a conclusion. -/
theorem exists_of_mem_activatedBy {a : Activated Exact} (ha : a ∈ b.activatedBy vs (Activation.ofReals xs) id) :
    ∃ p ∈ xs, a.degree = finite p.1 ∧ a.implication = b.implication ∧
      ∃ r ∈ b.rules, ∃ q ∈ r.conclusions, q.subject.id = id ∧ vs.term? q = some a.term := by
  obtain ⟨_, hmem, ha⟩ := List.mem_flatMap.1 ha
  obtain ⟨p, hp, rfl⟩ := List.mem_map.1 hmem
  obtain ⟨u, hu, rfl⟩ := List.mem_map.1 ha
  refine ⟨p, hp, rfl, rfl, ?_⟩
  obtain ⟨q, hq, hterm⟩ := List.mem_filterMap.1 hu
  obtain ⟨hq, hsubject⟩ := List.mem_filter.1 hq
  cases hr : b.rules[p.2]? with
  | none =>
    rw [hr] at hq
    cases hq
  | some r =>
    rw [hr] at hq
    exact ⟨r, List.mem_of_getElem? hr, q, hq, eq_of_beq (Bool.and_eq_true_iff.1 hsubject).2, hterm⟩

end RuleBlock

/-! ## §5 Outputs that take averages -/

/-- An output takes weighted averages of real values: it has no aggregation, its defuzzifier averages crisp values,
and the conclusions of a block about it have terms with values. -/
structure OutputVariable.Averages (vs : Variables Exact) (b : RuleBlock Exact) (v : OutputVariable Exact) : Prop where
  aggregation : v.fuzzyOutput.aggregation = none
  defuzzifier : ∃ type, type ≠ .tsukamoto ∧ v.defuzzifier = some (.weighted .average type)
  terms : ∀ r ∈ b.rules, ∀ p ∈ r.conclusions, p.subject.id = v.id →
    ∀ u, vs.term? p = some u → ∃ z, u.HasValue (some vs.surroundings) z

/-- An engine of which only one block is enabled. The conclusions of the block have no hedges, it implies by the
product, and of its rules those fire that are listed, with real degrees and with shares that reach the tolerance. -/
structure Engine.FiresAlone (e : Engine Exact) (k : Nat) (b : RuleBlock Exact) (xs : List (ℝ × Nat)) : Prop where
  block : e.blocks[k]? = some b
  enabled : b.enabled = true
  others : ∀ j c, e.blocks[j]? = some c → j ≠ k → c.enabled = false
  plain : b.IsPlain
  implication : b.implication = none ∨ b.implication = some .algebraicProduct
  degrees : ∃ ds, b.degrees (Engine.clearOutputs e.store) = .ok ds ∧
    ds.filter Activation.fires = Activation.ofReals xs
  shares : ∀ p ∈ xs, epsilon ≤ p.1 / (xs.map Prod.fst).sum

namespace OutputVariable

variable {vs : Variables Exact} {b : RuleBlock Exact} {v : OutputVariable Exact}

/-- The terms that a block activates on the output weigh as much as its rules. -/
theorem Averages.exists_weighs (h : v.Averages vs b)
    (himplication : b.implication = none ∨ b.implication = some .algebraicProduct) (xs : List (ℝ × Nat)) :
    ∃ w z : Activated Exact → ℝ, ∀ a ∈ b.activatedBy vs (Activation.ofReals xs) v.id,
      a.Weighs (some vs.surroundings) (w a) (z a) ∧ ∃ p ∈ xs, w a = p.1 := by
  have hexists : ∀ a ∈ b.activatedBy vs (Activation.ofReals xs) v.id, ∃ w z : ℝ,
      a.Weighs (some vs.surroundings) w z ∧ ∃ p ∈ xs, w = p.1 := by
    intro a ha
    obtain ⟨p, hp, hdegree, hsame, r, hr, q, hq, hid, hterm⟩ := RuleBlock.exists_of_mem_activatedBy ha
    obtain ⟨z, hz⟩ := h.terms r hr q hq hid a.term hterm
    exact ⟨p.1, z, ⟨hdegree, hz, by rwa [hsame]⟩, p, hp, rfl⟩
  choose! w z hwz using hexists
  exact ⟨w, z, hwz⟩

/-- The value of the output does not depend on a factor that the degrees of all rules have in common. -/
theorem Averages.exists_rawValue (h : v.Averages vs b)
    (himplication : b.implication = none ∨ b.implication = some .algebraicProduct) (xs : List (ℝ × Nat)) :
    ∃ x, ∀ c, (∀ p ∈ xs, epsilon ≤ c * p.1) → ∀ s, s.inputs = vs.surroundings.inputs →
      (v.clearFuzzyOutput.receive
        ((b.activatedBy vs (Activation.ofReals xs) v.id).map (Activated.scale c))).prepare.rawValue (some s) =
          .ok x := by
  obtain ⟨w, z, hwz⟩ := h.exists_weighs himplication xs
  obtain ⟨as, has⟩ : ∃ as, as = b.activatedBy vs (Activation.ofReals xs) v.id := ⟨_, rfl⟩
  rw [← has] at hwz ⊢
  have hactive : ∀ c, (v.clearFuzzyOutput.receive (as.map (Activated.scale c))).prepare.isActive =
      (v.enabled && !as.isEmpty) := by
    intro c
    show (v.enabled && !([] ++ as.map (Activated.scale c)).isEmpty) = _
    rw [List.nil_append, List.isEmpty_map]
  cases hany : v.enabled && !as.isEmpty with
  -- no rule reaches the output, whose value is the one of an idle cycle under every factor
  | false =>
    refine ⟨v.prepare.idleValue, fun c _ s _ => ?_⟩
    rw [rawValue, hactive, hany]
    rfl
  | true =>
    have hne : as ≠ [] := by
      rintro rfl
      simp at hany
    obtain ⟨type, htype, hdefuzzifier⟩ := h.defuzzifier
    refine ⟨finite ((as.map fun a => w a * z a).sum / (as.map w).sum), fun c hc s hs => ?_⟩
    have hweighs : ∀ a ∈ as, a.Weighs (some s) (w a) (z a) := fun a ha =>
      ⟨(hwz a ha).1.degree, (hwz a ha).1.value.of_inputs hs, (hwz a ha).1.implication⟩
    -- a single weight is enough to reach the tolerance
    have hsum : epsilon ≤ (as.map fun a => c * w a).sum := by
      refine epsilon_le_sum hne fun a ha => ?_
      obtain ⟨p, hp, hw⟩ := (hwz a ha).2
      rw [hw]
      exact hc p hp
    rw [List.sum_map_mul_left] at hsum
    rw [rawValue_of_active ((hactive c).trans hany) hdefuzzifier]
    refine average_scale htype ?_ ?_ hne hweighs hsum _ _
    · exact h.aggregation
    · exact List.nil_append _

end OutputVariable

/-! ## §6 General and proportional activation -/

namespace Engine

variable {e : Engine Exact} {k : Nat} {b : RuleBlock Exact} {xs : List (ℝ × Nat)} {m : Activation Exact}

/-- Under both methods a cycle ends as the defuzzification of outputs does that have received what the rules activate
by their degrees, but for a factor. -/
theorem FiresAlone.exists_process (h : e.FiresAlone k b xs) (hm : m = .general ∨ m = .proportional) :
    ∃ c t, (∀ p ∈ xs, epsilon ≤ c * p.1) ∧
      (∀ id, t.on id = (b.activatedBy (clearOutputs e.store) (Activation.ofReals xs) id).map (Activated.scale c)) ∧
      (e.withMethod k m).process.error = (defuzzifyOutputs ((clearOutputs e.store).receive t)).error ∧
      (e.withMethod k m).process.state.store =
        (defuzzifyOutputs ((clearOutputs e.store).receive t)).state := by
  obtain ⟨ds, hdegrees, hds⟩ := h.degrees
  obtain ⟨c, hc, hfired⟩ := RuleBlock.exists_fired hm b hds h.shares
  obtain ⟨t, ht, hon⟩ := RuleBlock.exists_allAdditions (clearOutputs e.store) h.plain
    (Activation.ofReals (xs.map fun p => (c * p.1, p.2)))
  have heffect : ({ b with activation := some m } : RuleBlock Exact).effect (clearOutputs e.store) =
      .ok (t, ({ b with activation := some m } : RuleBlock Exact).settled ds) := by
    refine (if_pos h.enabled).trans (bind_eq_ok_iff.2 ⟨ds, hdegrees, bind_eq_ok_iff.2 ⟨t, ?_, rfl⟩⟩)
    rw [hfired]
    exact ht
  have hothers : ∀ j c, (e.withMethod k m).blocks[j]? = some c → j ≠ k → c.enabled = false := by
    intro j c hc hj
    rw [getElem?_withMethod_ne e hj] at hc
    exact h.others j c hc hj
  have heffects : effects (clearOutputs (e.withMethod k m).store) (e.withMethod k m).blocks = .ok (t, _) :=
    effects_of_others_disabled (getElem?_withMethod_self h.block m) hothers heffect
  refine ⟨c, t, hc, fun id => ?_, process_of_effects heffects⟩
  rw [hon, RuleBlock.activatedBy_scale]

/-- The outputs that a store has received a trail for. -/
theorem getElem?_receive_clearOutputs {vs : Variables Exact} {i : Nat} {v : OutputVariable Exact}
    (hv : vs.outputs[i]? = some v) (t : Trail Exact) :
    ((clearOutputs vs).receive t).outputs[i]? = some (v.clearFuzzyOutput.receive (t.on v.id)) := by
  show ((vs.outputs.map OutputVariable.clearFuzzyOutput).map fun v => v.receive (t.on v.id))[i]? = _
  rw [List.getElem?_map, List.getElem?_map, hv]
  rfl

/-- Where all outputs take averages, a cycle is completed. -/
theorem FiresAlone.error_process_eq_none (h : e.FiresAlone k b xs) (hm : m = .general ∨ m = .proportional)
    (houtputs : ∀ v ∈ e.outputs, v.Averages (clearOutputs e.store) b) :
    (e.withMethod k m).process.error = none := by
  obtain ⟨c, t, hc, hon, herror, -⟩ := h.exists_process hm
  rw [herror]
  refine error_defuzzifyFrom_eq_none fun v' hv' => ?_
  obtain ⟨u, hu, rfl⟩ := List.mem_map.1 hv'
  obtain ⟨v, hv, rfl⟩ := List.mem_map.1 hu
  obtain ⟨x, hx⟩ := (houtputs v hv).exists_rawValue h.implication xs
  refine ⟨x, fun s hs => ?_⟩
  rw [hon]
  exact hx c hc s (by rw [hs, Variables.surroundings_receive])

/-- The value of an output that takes averages is the same under both methods. -/
theorem FiresAlone.exists_value (h : e.FiresAlone k b xs) {i : Nat} {v : OutputVariable Exact}
    (hv : e.outputs[i]? = some v) (haverages : v.Averages (clearOutputs e.store) b) :
    ∃ u : OutputVariable Exact, ∀ m : Activation Exact, m = .general ∨ m = .proportional →
      (e.withMethod k m).process.error = none →
        ∃ w, (e.withMethod k m).process.state.outputs[i]? = some w ∧ w.clearFuzzyOutput = u := by
  obtain ⟨x, hx⟩ := haverages.exists_rawValue h.implication xs
  refine ⟨{ v.clearFuzzyOutput.prepare with value := v.prepare.settleValue x }, fun m hm hdone => ?_⟩
  obtain ⟨c, t, hc, hon, herror, hstore⟩ := h.exists_process hm
  rw [herror] at hdone
  obtain ⟨ws, hws, hall⟩ := exists_defuzzify_of_done hdone
  obtain ⟨w, hw, s, hs, hdefuzzify⟩ := exists_getElem?_of_forall₂ hall (getElem?_receive_clearOutputs hv t)
  refine ⟨w, ?_, ?_⟩
  · show (e.withMethod k m).process.state.store.outputs[i]? = _
    rw [hstore]
    exact (congrArg (·[i]?) hws).trans hw
  · rw [hon] at hdefuzzify
    rw [OutputVariable.defuzzify_of_ok (hx c hc s (by rw [hs, Variables.surroundings_receive]))] at hdefuzzify
    rw [← (Prod.mk.inj hdefuzzify).1]
    rfl

end Engine

/-- A weighted average of constants and combinations of inputs is a mean of their values: it lies between bounds of
them, and it depends neither on the order of the activated terms nor on a factor that their degrees have in common.
So where only one block is enabled, whose conclusions have no hedges, and where no share of a rule that fires is
within the tolerance of zero, general and proportional activation lead to the same values; and no such cycle is
stopped where all outputs take averages. -/
theorem Exact.average_insensitive :
    (∀ (type : WeightedType) (around : Option (Surroundings Exact)) (s : Aggregated Exact)
      (w z : Activated Exact → ℝ) (minimum maximum : Exact),
      type ≠ .tsukamoto → s.aggregation = none → s.terms ≠ [] →
      (∀ a ∈ s.terms, 0 < w a ∧ a.Weighs around (w a) (z a)) → epsilon ≤ (s.terms.map w).sum →
      ∃ v, (Defuzzifier.weighted .average type).defuzzify around (.aggregated s) minimum maximum = .ok (finite v) ∧
        (∀ lower upper, IsLeast {x | ∃ a ∈ s.terms, z a = x} lower →
          IsGreatest {x | ∃ a ∈ s.terms, z a = x} upper → lower ≤ v ∧ v ≤ upper) ∧
        (∀ as, as.Perm s.terms →
          (Defuzzifier.weighted .average type).defuzzify around (.aggregated { s with terms := as }) minimum maximum =
            .ok (finite v)) ∧
        ∀ c, epsilon ≤ c * (s.terms.map w).sum →
          (Defuzzifier.weighted .average type).defuzzify around
            (.aggregated { s with terms := s.terms.map (Activated.scale c) }) minimum maximum = .ok (finite v)) ∧
    ∀ (e : Engine Exact) (k : Nat) (b : RuleBlock Exact) (xs : List (ℝ × Nat)), e.FiresAlone k b xs →
      (∀ (i : Nat) (v : OutputVariable Exact), e.outputs[i]? = some v → v.Averages (Engine.clearOutputs e.store) b →
        (e.withMethod k .general).process.error = none → (e.withMethod k .proportional).process.error = none →
          ∃ w w' : OutputVariable Exact, (e.withMethod k .general).process.state.outputs[i]? = some w ∧
            (e.withMethod k .proportional).process.state.outputs[i]? = some w' ∧
            w'.value = w.value ∧ w'.clearFuzzyOutput = w.clearFuzzyOutput) ∧
      ((∀ v ∈ e.outputs, v.Averages (Engine.clearOutputs e.store) b) →
        (e.withMethod k .general).process.error = none ∧ (e.withMethod k .proportional).process.error = none) := by
  constructor
  · intro type around s w z minimum maximum htype haggregation hne h hweights
    have hweighs : ∀ a ∈ s.terms, a.Weighs around (w a) (z a) := fun a ha => (h a ha).2
    refine ⟨_, average_map htype haggregation (List.map_id _).symm hne hweighs hweights _ _, ?_, ?_, ?_⟩
    · intro lower upper hlower hupper
      exact quotient_mem (fun a ha => (h a ha).1.le) (fun a ha => ⟨hlower.2 ⟨a, ha, rfl⟩, hupper.2 ⟨a, ha, rfl⟩⟩)
        (epsilon_pos.trans_le hweights)
    · intro as has
      have hsums : ∀ g : Activated Exact → ℝ, (as.map g).sum = (s.terms.map g).sum := fun g => (has.map g).sum_eq
      have hne' : as ≠ [] := fun hnil => hne (List.perm_nil.1 (hnil ▸ has.symm))
      rw [average_map htype haggregation (s := { s with terms := as }) (List.map_id _).symm hne'
        (fun a ha => hweighs a (has.subset ha)) (by rwa [hsums]), hsums, hsums]
    · intro c hc
      refine average_scale htype ?_ ?_ hne hweighs hc _ _
      · exact haggregation
      · rfl
  · intro e k b xs h
    refine ⟨fun i v hv haverages hgeneral hproportional => ?_, fun houtputs => ?_⟩
    · obtain ⟨u, hu⟩ := h.exists_value hv haverages
      obtain ⟨w, hw, hwu⟩ := hu .general (.inl rfl) hgeneral
      obtain ⟨w', hw', hwu'⟩ := hu .proportional (.inr rfl) hproportional
      have hsame := hwu'.trans hwu.symm
      have hvalue : w'.clearFuzzyOutput.value = w.clearFuzzyOutput.value := by rw [hsame]
      exact ⟨w, w', hw, hw', hvalue, hsame⟩
    · exact ⟨h.error_process_eq_none (.inl rfl) houtputs, h.error_process_eq_none (.inr rfl) houtputs⟩

namespace Engine

/-- An input of value two. -/
noncomputable def blendInput : Variable Exact := { Variable.empty "x" 0.0 2.0 with value := 2.0 }

/-- The constant two, and twice the input and one. -/
noncomputable def blendTerms : List (Term Exact) :=
  [⟨0, "LOW", .constant 2.0⟩, ⟨1, "RISING", .linear [2.0, 1.0]⟩]

/-- An output with these terms, which averages them. -/
noncomputable def blendOutput : OutputVariable Exact :=
  { OutputVariable.empty "y" 0.0 5.0 with
    id := 1
    terms := blendTerms
    defuzzifier := some (.weighted .average .automatic) }

/-- A block, `if x is any then y is LOW` and `if x is any then y is RISING with 0.5`. -/
noncomputable def blendBlock : RuleBlock Exact :=
  ⟨"rules", true, none, none, none, none,
    [exactRule 1.0 ⟨⟨0, "x", false⟩, [.any], none⟩ 0 "LOW",
      exactRule 0.5 ⟨⟨0, "x", false⟩, [.any], none⟩ 1 "RISING"]⟩

/-- An engine of this block, and of one that is disabled. -/
noncomputable def blend : Engine Exact :=
  ⟨"blend", ⟨[blendInput], [blendOutput], [], [], 2⟩, [blendBlock, { exactReader with enabled := false }], .idle⟩

theorem hasValue_blendTerms {u : Term Exact} (hu : u ∈ blendTerms) :
    u.HasValue (some blend.store.surroundings) (if u.id = 0 then 2 else 5) := by
  rcases List.mem_pair.1 hu with rfl | rfl
  · exact .inl (congrArg Body.constant literal_two)
  · refine .inr ⟨_, _, rfl, rfl, ?_⟩
    show ((0.0 : Exact) + 2.0 * 2.0) + 1.0 = finite 5
    rw [literal_zero, literal_one, literal_two, finite_mul, finite_add, finite_add]
    norm_num

/-- The rules of the blend fire with one and one half, so that their shares are two thirds and one third. -/
theorem firesAlone_blend : blend.FiresAlone 0 blendBlock [(1, 0), (1 / 2, 1)] := by
  refine ⟨rfl, rfl, fun j c hc hj => ?_, fun r hr p hp => ?_, .inl rfl, ⟨_, rfl, ?_⟩, fun p hp => ?_⟩
  · match j, hc, hj with
    | 1, hc, _ =>
      cases hc
      rfl
  · rcases List.mem_pair.1 hr with rfl | rfl
    · cases List.mem_singleton.1 hp
      rfl
    · cases List.mem_singleton.1 hp
      rfl
  · have hdegrees : [((1.0 * 1.0 : Exact), 0), (0.5 * 1.0, 1)] = Activation.ofReals [(1, 0), (1 / 2, 1)] := by
      simp [Activation.ofReals, half_eq]
    refine (congrArg (List.filter _) hdegrees).trans (Activation.filter_fires_eq_self fun p hp => ?_)
    rcases List.mem_pair.1 hp with rfl | rfl
    · norm_num [epsilon]
    · norm_num [epsilon]
  · rcases List.mem_pair.1 hp with rfl | rfl
    · norm_num [epsilon]
    · norm_num [epsilon]

theorem averages_blendOutput : blendOutput.Averages (clearOutputs blend.store) blendBlock := by
  refine ⟨rfl, ⟨.automatic, by decide, rfl⟩, fun r hr p hp _ u hu => ⟨if u.id = 0 then 2 else 5, ?_⟩⟩
  refine hasValue_blendTerms ?_
  rcases List.mem_pair.1 hr with rfl | rfl
  · cases List.mem_singleton.1 hp
    cases hu
    exact List.mem_cons_self
  · cases List.mem_singleton.1 hp
    cases hu
    exact List.mem_cons_of_mem _ List.mem_cons_self

/-- Both terms activated to one half. -/
noncomputable def blendSet : Aggregated Exact :=
  ⟨"y", 0.0, 5.0, none, blendTerms.map fun u => ⟨u, 0.5, some .algebraicProduct⟩⟩

theorem weighs_blendSet {a : Activated Exact} (ha : a ∈ blendSet.terms) :
    a.Weighs (some blend.store.surroundings) half (if a.term.id = 0 then 2 else 5) := by
  obtain ⟨u, hu, rfl⟩ := List.mem_map.1 ha
  exact ⟨literal_half, hasValue_blendTerms hu, .inr rfl⟩

end Engine

/-- The mean of two activated terms lies between the values two and five, also in the opposite order and at twice the
degrees; and both cycles of an engine are completed and leave the output with the same value. -/
theorem Exact.average_insensitive_blend :
    (∃ v, (∀ as ∈ [Engine.blendSet.terms, Engine.blendSet.terms.reverse, Engine.blendSet.terms.map (Activated.scale 2)],
      (Defuzzifier.weighted .average .automatic).defuzzify (some Engine.blend.store.surroundings)
        (.aggregated { Engine.blendSet with terms := as }) 0.0 5.0 = .ok (finite v)) ∧ 2 ≤ v ∧ v ≤ 5) ∧
    ((Engine.blend.withMethod 0 .general).process.error = none ∧
      (Engine.blend.withMethod 0 .proportional).process.error = none) ∧
    ∃ w w' : OutputVariable Exact, (Engine.blend.withMethod 0 .general).process.state.outputs[0]? = some w ∧
      (Engine.blend.withMethod 0 .proportional).process.state.outputs[0]? = some w' ∧ w'.value = w.value := by
  constructor
  · have hne : Engine.blendSet.terms ≠ [] := List.cons_ne_nil _ _
    have hweights : epsilon ≤ (Engine.blendSet.terms.map fun _ => half).sum :=
      epsilon_le_sum hne fun _ _ => half_eq ▸ epsilon_lt_half.le
    have hhalf : 0 < half := half_eq ▸ one_half_pos
    obtain ⟨v, hv, hbounds, hperm, hscale⟩ :=
      Exact.average_insensitive.1 .automatic (some Engine.blend.store.surroundings) Engine.blendSet (fun _ => half)
        (fun a => if a.term.id = 0 then 2 else 5) 0.0 5.0 (by decide) rfl hne
        (fun a ha => ⟨hhalf, Engine.weighs_blendSet ha⟩) hweights
    have hvalues : ∀ a : Activated Exact, (2 : ℝ) ≤ (if a.term.id = 0 then 2 else 5) ∧
        (if a.term.id = 0 then 2 else 5) ≤ (5 : ℝ) := by
      intro a
      split
      · norm_num
      · norm_num
    have hlow : IsLeast {x : ℝ | ∃ a ∈ Engine.blendSet.terms, (if a.term.id = 0 then 2 else 5) = x} 2 := by
      refine ⟨⟨_, List.mem_cons_self, if_pos rfl⟩, ?_⟩
      rintro x ⟨a, -, rfl⟩
      exact (hvalues a).1
    have hhigh : IsGreatest {x : ℝ | ∃ a ∈ Engine.blendSet.terms, (if a.term.id = 0 then 2 else 5) = x} 5 := by
      refine ⟨⟨_, List.mem_cons_of_mem _ List.mem_cons_self, if_neg one_ne_zero⟩, ?_⟩
      rintro x ⟨a, -, rfl⟩
      exact (hvalues a).2
    refine ⟨v, fun as has => ?_, hbounds 2 5 hlow hhigh⟩
    rcases List.mem_cons.1 has with rfl | has
    · exact hv
    rcases List.mem_pair.1 has with rfl | rfl
    · exact hperm _ (List.reverse_perm _)
    · exact hscale 2 (by linarith [epsilon_pos])
  · obtain ⟨hvalues, hdone⟩ := Exact.average_insensitive.2 Engine.blend 0 Engine.blendBlock _ Engine.firesAlone_blend
    obtain ⟨hgeneral, hproportional⟩ := hdone fun v hv => by
      cases List.mem_singleton.1 hv
      exact Engine.averages_blendOutput
    obtain ⟨w, w', hw, hw', hvalue, -⟩ := hvalues 0 Engine.blendOutput rfl Engine.averages_blendOutput hgeneral
      hproportional
    exact ⟨⟨hgeneral, hproportional⟩, w, w', hw, hw', hvalue⟩

end FuzzyInference
