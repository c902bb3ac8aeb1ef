import FuzzyInference.Proofs.Firing

/-!
# What rules refer to

Rules refer to variables by identity, and a rule that was loaded before a variable was removed still refers
to it. As long as the loaded rules of an engine refer only to its own variables, a block reads nothing of a
store but the inputs and, of the outputs, everything except their values and the range of their fuzzy
outputs.

The plan of this module:

* references within an engine;
* stores that look *alike* to rules, and what agrees in them, from one proposition to all blocks.

## Main statements

* `Variables.Alike.weightedDegree_eq`, `Variables.Alike.additions_eq`: a rule
* `Variables.Alike.effects_eq`: blocks in order
-/

namespace FuzzyInference

open Scalar Checked

variable {α : Type}

/-! ## §1 References within an engine -/

namespace Variables

/-- The variable is one of the inputs and outputs, not one that was removed. -/
def Owns (vs : Variables α) (r : VariableRef) : Prop :=
  match r.isOutput with
  | true => ∃ v ∈ vs.outputs, v.id = r.id
  | false => ∃ v ∈ vs.inputs, v.id = r.id

/-- The conclusion is about an output of the engine and one of the terms of this output. -/
structure Accepts (vs : Variables α) (p : Proposition) : Prop where
  isOutput : p.subject.isOutput = true
  owns : vs.Owns p.subject
  term : ∃ u, vs.term? p = some u

end Variables

/-- Every variable of the rule is one of the inputs and outputs. -/
structure Rule.RefersWithin (vs : Variables α) (r : Rule α) : Prop where
  antecedent : ∀ c, r.antecedent = some c → ∀ p ∈ c.propositions, vs.Owns p.subject
  conclusions : ∀ p ∈ r.conclusions, vs.Accepts p

/-- The loaded rules of the block refer only to inputs and outputs. -/
def RuleBlock.RefersWithin [Scalar α] (vs : Variables α) (b : RuleBlock α) : Prop :=
  ∀ r ∈ b.rules, r.isLoaded = true → r.RefersWithin vs

/-- The loaded rules of the engine refer only to its own variables. -/
def Engine.RefersWithin [Scalar α] (e : Engine α) : Prop := ∀ b ∈ e.blocks, b.RefersWithin e.store

namespace Variables

/-- An output that one store owns is found in every store whose outputs are the same as far as `f` sees. -/
theorem exists_output_of_map_eq {β : Type} {f : OutputVariable α → β} {g : β → Nat}
    (hid : ∀ v, g (f v) = v.id) {vs ws : Variables α} (h : vs.outputs.map f = ws.outputs.map f)
    {id : Nat} (hown : ∃ v ∈ vs.outputs, v.id = id) :
    ∃ v w, vs.output? id = some v ∧ ws.output? id = some w ∧ f v = f w := by
  obtain ⟨u, hu, rfl⟩ := hown
  -- looking for an identity comes to the same before and after `f`
  have hfind : ∀ us : Variables α, (us.outputs.find? fun v => v.id == u.id).map f =
      (us.outputs.map f).find? fun b => g b == u.id := by
    intro us
    rw [List.find?_map]
    simp only [Function.comp_def, hid]
  have hsome : (vs.outputs.find? fun v => v.id == u.id).isSome :=
    List.find?_isSome.2 ⟨u, hu, beq_self_eq_true _⟩
  obtain ⟨v, hv⟩ := Option.isSome_iff_exists.1 hsome
  have hmap := hfind ws
  rw [← h, ← hfind vs, hv, Option.map_some] at hmap
  obtain ⟨w, hw, hvw⟩ := Option.map_eq_some_iff.1 hmap
  -- outputs of the engine come before those that were removed
  refine ⟨v, w, ?_, ?_, hvw.symm⟩
  · rw [output?, List.find?_append, hv]
    rfl
  · rw [output?, List.find?_append, hw]
    rfl

/-- What of an output matters for references to it: its identity and its terms. -/
def signatureOf (v : OutputVariable α) : Nat × List (Term α) := (v.id, v.terms ++ v.removedTerms)

/-- What of the variables matters for references to them. -/
def signature (vs : Variables α) : List Nat × List (Nat × List (Term α)) :=
  (vs.inputs.map fun v => v.id, vs.outputs.map signatureOf)

@[simp] theorem signature_receive (vs : Variables α) (t : Trail α) :
    (vs.receive t).signature = vs.signature := by
  simp only [signature, receive, List.map_map]
  rfl

theorem Owns.of_signature_eq {vs ws : Variables α} (h : vs.signature = ws.signature) {r : VariableRef}
    (hr : vs.Owns r) : ws.Owns r := by
  obtain ⟨hinputs, houtputs⟩ := Prod.mk.inj h
  unfold Owns at hr ⊢
  split at hr
  · obtain ⟨v, hv, hid⟩ := hr
    have hmem : signatureOf v ∈ ws.outputs.map signatureOf := houtputs ▸ List.mem_map_of_mem hv
    obtain ⟨w, hw, hwv⟩ := List.mem_map.1 hmem
    exact ⟨w, hw, (congrArg Prod.fst hwv).trans hid⟩
  · obtain ⟨v, hv, hid⟩ := hr
    have hmem : v.id ∈ ws.inputs.map fun v => v.id :=
      hinputs ▸ List.mem_map_of_mem (f := fun v : Variable α => v.id) hv
    obtain ⟨w, hw, hwv⟩ := List.mem_map.1 hmem
    exact ⟨w, hw, hwv.trans hid⟩

theorem term?_of_signature_eq {vs ws : Variables α} (h : vs.signature = ws.signature)
    {p : Proposition} (hp : vs.Accepts p) : vs.term? p = ws.term? p := by
  have howns := hp.owns
  unfold Owns at howns
  rw [hp.isOutput] at howns
  obtain ⟨v, w, hv, hw, hvw⟩ :=
    exists_output_of_map_eq (g := Prod.fst) (fun _ => rfl) (Prod.mk.inj h).2 howns
  have hterms : v.terms ++ v.removedTerms = w.terms ++ w.removedTerms := congrArg Prod.snd hvw
  simp only [term?, hv, hw, Option.bind_some, Variable.termById?, hterms]

theorem Accepts.of_signature_eq {vs ws : Variables α} (h : vs.signature = ws.signature)
    {p : Proposition} (hp : vs.Accepts p) : ws.Accepts p where
  isOutput := hp.isOutput
  owns := hp.owns.of_signature_eq h
  term := by
    rw [← term?_of_signature_eq h hp]
    exact hp.term

end Variables

/-- References stay within variables of the same identities and terms. -/
theorem RuleBlock.RefersWithin.of_signature_eq [Scalar α] {vs ws : Variables α}
    (h : vs.signature = ws.signature) {b : RuleBlock α} (hb : b.RefersWithin vs) :
    b.RefersWithin ws := by
  intro r hr hloaded
  obtain ⟨hantecedent, hconclusions⟩ := hb r hr hloaded
  exact ⟨fun c hc p hp => (hantecedent c hc p hp).of_signature_eq h,
    fun p hp => (hconclusions p hp).of_signature_eq h⟩

/-! ## §2 Stores that look alike -/

section Alike

variable [Scalar α]

/-- The output without what rules do not read of it: its values and the range of its fuzzy output. -/
def OutputVariable.unvalued (v : OutputVariable α) : OutputVariable α :=
  { v with
    value := nan
    previousValue := nan
    fuzzyOutput := { v.fuzzyOutput with minimum := nan, maximum := nan } }

namespace Variables

/-- Two stores that rules cannot tell apart: variables that were removed do not count, nor do the values of
outputs, as long as no term of an input sees them. -/
structure Alike (vs ws : Variables α) : Prop where
  inputs : vs.inputs = ws.inputs
  outputs : vs.outputs.map OutputVariable.unvalued = ws.outputs.map OutputVariable.unvalued
  membership : ∀ v ∈ vs.inputs, ∀ t ∈ v.terms ++ v.removedTerms, ∀ x,
    t.membership (some vs.surroundings) x = t.membership (some ws.surroundings) x

namespace Alike

variable {vs ws : Variables α}

/-- Stores that look alike do so after they received the same trail. -/
theorem receive (h : vs.Alike ws) (t : Trail α) : (vs.receive t).Alike (ws.receive t) where
  inputs := h.inputs
  outputs := by
    -- receiving adds terms to the fuzzy output and touches neither values nor ranges
    have hcomm : ∀ us : Variables α, (us.receive t).outputs.map OutputVariable.unvalued =
        (us.outputs.map OutputVariable.unvalued).map fun v => v.receive (t.on v.id) := by
      intro us
      simp only [Variables.receive, List.map_map]
      rfl
    rw [hcomm, hcomm, h.outputs]
  membership := by
    simp only [surroundings_receive]
    exact h.membership

/-- An input of the engine is the same in both stores. -/
theorem input?_eq (h : vs.Alike ws) {id : Nat} (hid : ∃ v ∈ vs.inputs, v.id = id) :
    ∃ v ∈ vs.inputs, vs.input? id = some v ∧ ws.input? id = some v := by
  obtain ⟨w, hw, rfl⟩ := hid
  have hsome : (vs.inputs.find? fun v => v.id == w.id).isSome :=
    List.find?_isSome.2 ⟨w, hw, beq_self_eq_true _⟩
  obtain ⟨v, hv⟩ := Option.isSome_iff_exists.1 hsome
  refine ⟨v, List.mem_of_find?_eq_some hv, ?_, ?_⟩
  · rw [Variables.input?, List.find?_append, hv]
    rfl
  · rw [Variables.input?, List.find?_append, ← h.inputs, hv]
    rfl

/-- An output of the engine differs in both stores only in what rules do not read. -/
theorem output?_eq (h : vs.Alike ws) {id : Nat} (hid : ∃ v ∈ vs.outputs, v.id = id) :
    ∃ v w, vs.output? id = some v ∧ ws.output? id = some w ∧ v.unvalued = w.unvalued :=
  exists_output_of_map_eq (g := fun v => v.id) (fun _ => rfl) h.outputs hid

theorem signature_eq (h : vs.Alike ws) : vs.signature = ws.signature := by
  have houtputs : ∀ us : Variables α, us.outputs.map signatureOf =
      (us.outputs.map OutputVariable.unvalued).map signatureOf := by
    intro us
    rw [List.map_map]
    rfl
  rw [signature, signature, h.inputs, houtputs, houtputs, h.outputs]

/-! ### Propositions -/

theorem isEnabled_eq (h : vs.Alike ws) {r : VariableRef} (hr : vs.Owns r) :
    vs.isEnabled r = ws.isEnabled r := by
  unfold Variables.Owns at hr
  unfold Variables.isEnabled
  cases hout : r.isOutput with
  | true =>
    rw [hout] at hr
    obtain ⟨v, w, hv, hw, hvw⟩ := h.output?_eq hr
    have henabled : v.enabled = w.enabled := congrArg (fun u => u.enabled) hvw
    simp [hv, hw, henabled]
  | false =>
    rw [hout] at hr
    obtain ⟨v, -, hv, hw⟩ := h.input?_eq hr
    simp [hv, hw]

theorem reached_eq (h : vs.Alike ws) {p : Proposition} (hp : vs.Owns p.subject) (t : TermRef) :
    vs.reached p t = ws.reached p t := by
  unfold Variables.Owns at hp
  unfold Variables.reached
  cases hout : p.subject.isOutput with
  | true =>
    rw [hout] at hp
    obtain ⟨v, w, hv, hw, hvw⟩ := h.output?_eq hp
    have hdegree : v.fuzzyOutput.activationDegree t.id = w.fuzzyOutput.activationDegree t.id :=
      congrArg (fun u => u.fuzzyOutput.activationDegree t.id) hvw
    simp only [if_true, hv, hw, hdegree]
  | false =>
    rw [hout] at hp
    obtain ⟨v, hmem, hv, hw⟩ := h.input?_eq hp
    simp only [Bool.false_eq_true, if_false, hv, hw]
    cases hu : v.termById? t.id with
    | none => rfl
    -- only the membership of a term of an input sees more of the store than the input
    | some u => exact h.membership v hmem u (List.mem_of_find?_eq_some hu) v.value

theorem degreeOf_eq (h : vs.Alike ws) {p : Proposition} (hp : vs.Owns p.subject) :
    vs.degreeOf p = ws.degreeOf p := by
  unfold Variables.degreeOf
  rw [h.isEnabled_eq hp]
  cases p.term with
  | none => rfl
  | some t => simp only [h.reached_eq hp t]

end Alike

end Variables

/-- The degree of a condition depends on its propositions only. -/
theorem Condition.degree_congr {conjunction : Option TNorm} {disjunction : Option SNorm}
    {f g : Proposition → Except Error α} {c : Condition} (h : ∀ p ∈ c.propositions, f p = g p) :
    c.degree conjunction disjunction f = c.degree conjunction disjunction g := by
  induction c with
  | proposition p => exact h p (List.mem_singleton.2 rfl)
  | join o left right ihleft ihright =>
    have hleft := ihleft fun p hp => h p (List.mem_append_left _ hp)
    have hright := ihright fun p hp => h p (List.mem_append_right _ hp)
    rw [degree, degree, hleft, hright]
  | negation operand ih => rw [degree, degree, ih h]

/-! ### Rules -/

namespace Variables.Alike

variable {vs ws : Variables α}

theorem weightedDegree_eq (h : vs.Alike ws) {r : Rule α} (hr : r.RefersWithin vs)
    (conjunction : Option TNorm) (disjunction : Option SNorm) :
    r.weightedDegree vs conjunction disjunction = r.weightedDegree ws conjunction disjunction := by
  have hantecedent : r.antecedentDegree vs conjunction disjunction =
      r.antecedentDegree ws conjunction disjunction := by
    unfold Rule.antecedentDegree
    cases hc : r.antecedent with
    | none => rfl
    | some c => exact Condition.degree_congr fun p hp => h.degreeOf_eq (hr.antecedent c hc p hp)
  rw [Rule.weightedDegree, Rule.weightedDegree, hantecedent]

theorem additions_eq (h : vs.Alike ws) {ps : List Proposition} (hps : ∀ p ∈ ps, vs.Accepts p)
    (implication : Option TNorm) (degree : α) :
    Rule.additions vs implication degree ps = Rule.additions ws implication degree ps := by
  unfold Rule.additions
  rw [mapM_congr fun p hp => ?_]
  have haccepts := hps p hp
  rw [Variables.additions, Variables.additions, h.isEnabled_eq haccepts.owns,
    term?_of_signature_eq h.signature_eq haccepts]

/-! ### Blocks -/

theorem degrees_eq (h : vs.Alike ws) {b : RuleBlock α} (hb : b.RefersWithin vs) :
    b.degrees vs = b.degrees ws := by
  unfold RuleBlock.degrees RuleBlock.degreesFrom
  refine mapM_congr fun p hp => ?_
  -- rules that are not loaded may refer to anything, but they have no degree
  obtain ⟨hmem, hactive⟩ := List.mem_filter.1 hp
  have hloaded : p.1.isLoaded = true := (Bool.and_eq_true_iff.1 hactive).2
  have hrule : p.1 ∈ b.rules := (List.mem_zipIdx' hmem).2 ▸ List.getElem_mem _
  rw [h.weightedDegree_eq (hb p.1 hrule hloaded)]

theorem allAdditions_eq (h : vs.Alike ws) {b : RuleBlock α} (hb : b.RefersWithin vs)
    {ps : List (α × Nat)} (hps : ∀ p ∈ ps, b.HasActive p.2) :
    b.allAdditions vs ps = b.allAdditions ws ps := by
  unfold RuleBlock.allAdditions
  rw [mapM_congr fun p hp => ?_]
  obtain ⟨r, hr, hactive⟩ := hps p hp
  have hloaded : r.isLoaded = true := (Bool.and_eq_true_iff.1 hactive).2
  have hrule := hb r (List.mem_of_getElem? hr) hloaded
  simp only [RuleBlock.additionsOf, hr, h.additions_eq hrule.conclusions]

theorem effect_eq (h : vs.Alike ws) {b : RuleBlock α} (hb : b.RefersWithin vs) :
    b.effect vs = b.effect ws := by
  unfold RuleBlock.effect
  rw [← h.degrees_eq hb]
  cases hds : b.degrees vs with
  | error e => rfl
  | ok ds =>
    have hfired : ∀ p ∈ b.fired ds, b.HasActive p.2 := fun p hp => RuleBlock.hasActive_of_mem_fired hds hp
    rw [ok_bind, ok_bind, h.allAdditions_eq hb hfired]

/-- Blocks in order do the same in stores that look alike. -/
theorem effects_eq (h : vs.Alike ws) {bs : List (RuleBlock α)} (hbs : ∀ b ∈ bs, b.RefersWithin vs) :
    Engine.effects vs bs = Engine.effects ws bs := by
  -- both stores receive what the first block adds, and still look alike to the rest
  induction bs generalizing vs ws with
  | nil => rfl
  | cons b rest ih =>
    rw [Engine.effects, Engine.effects, ← h.effect_eq (hbs b List.mem_cons_self)]
    cases b.effect vs with
    | error e => rfl
    | ok p =>
      obtain ⟨t, settled⟩ := p
      have hrest : ∀ c ∈ rest, c.RefersWithin (vs.receive t) :=
        fun c hc => (hbs c (List.mem_cons_of_mem _ hc)).of_signature_eq (signature_receive vs t).symm
      simp only [ok_bind, ih (h.receive t) hrest]

end Variables.Alike

end Alike

/-! ## §3 An engine of two blocks -/

namespace Engine

/-- The output of the relay, with two crisp terms. -/
def relayOutput : OutputVariable Float where
  id := 1
  name := "y"
  minimum := 0.0
  maximum := 1.0
  enabled := true
  lockValueInRange := false
  value := 0.0
  terms := [⟨0, "LOW", .constant 0.25⟩, ⟨1, "HIGH", .constant 0.75⟩]
  removedTerms := []
  nextTerm := 2
  fuzzyOutput := ⟨"y", 0.0, 1.0, none, []⟩
  defuzzifier := some (.weighted .average .takagiSugeno)
  defaultValue := 0.0
  previousValue := 0.0
  lockPreviousValue := false

/-- A proposition about the output of the relay. -/
def relayProposition (hedges : List Hedge) (id : Nat) (term : String) : Proposition :=
  ⟨⟨1, "y", true⟩, hedges, some ⟨id, term⟩⟩

/-- A block of one rule of weight one. -/
def relayBlock (name : Name) (antecedent conclusion : Proposition) : RuleBlock Float :=
  ⟨name, true, none, none, none, none,
    [⟨"", 1.0, true, "", some (.proposition antecedent), "", [conclusion], 0.0, false⟩]⟩

/-- A relay: the rule of the second block, `if y is very LOW then y is extremely HIGH`, reads what the rule
of the first one, `if x is any then y is LOW`, has activated. -/
def relay : Engine Float where
  name := "relay"
  store := ⟨[{ Variable.empty "x" 0.0 1.0 with value := 0.5 }], [relayOutput], [], [], 2⟩
  blocks := [
    relayBlock "first" ⟨⟨0, "x", false⟩, [.any], none⟩ (relayProposition [] 0 "LOW"),
    relayBlock "second" (relayProposition [.very] 0 "LOW") (relayProposition [.extremely] 1 "HIGH")]
  state := .idle

theorem refersWithin_relay : relay.RefersWithin := by
  have howns : relay.store.Owns ⟨1, "y", true⟩ := ⟨relayOutput, List.mem_singleton.2 rfl, rfl⟩
  have hinput : relay.store.Owns ⟨0, "x", false⟩ := ⟨_, List.mem_singleton.2 rfl, rfl⟩
  intro b hb r hr _
  rcases List.mem_pair.1 hb with rfl | rfl
  · cases List.mem_singleton.1 hr
    constructor
    · intro c hc p hp
      cases hc
      cases List.mem_singleton.1 hp
      exact hinput
    · intro p hp
      cases List.mem_singleton.1 hp
      exact ⟨rfl, howns, _, rfl⟩
  · cases List.mem_singleton.1 hr
    constructor
    · intro c hc p hp
      cases hc
      cases List.mem_singleton.1 hp
      exact howns
    · intro p hp
      cases List.mem_singleton.1 hp
      exact ⟨rfl, howns, _, rfl⟩

end Engine

end FuzzyInference
