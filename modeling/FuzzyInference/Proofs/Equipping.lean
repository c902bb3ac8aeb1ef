import FuzzyInference.Proofs.Settings

/-!
# Equipping engines

An engine is configured with the names of operators, which fill in what its blocks and outputs lack. The names
are checked before anything is changed, but the resolution is not: it is read where an integral defuzzifier is built
for an output, after the blocks and the outputs before have been equipped. So there are three ways for this to end:
an unknown name changes nothing, a resolution that is no whole number stops it in the middle, and otherwise every
operator is the one that was there or the one that is named.

The plan of this module:

* operators that are filled in;
* the defuzzifier of a name and a resolution;
* outputs one after the other;
* engines.

## Main statements

* `Defuzzifier.build_eq_error_iff`: which resolutions are refused
* `OutputVariable.equipAll_cases`: outputs, up to the one that is refused
* `Engine.configure_cases`: the three ways
-/

namespace FuzzyInference

open Checked

/-! ## §1 Operators -/

/-- The operator that was there, or else the one that the name stands for. -/
structure Catalogue.Fills {ι : Type} (c : Catalogue ι) (name : String) (before after : Option ι) : Prop where
  kept : ∀ i, before = some i → after = some i
  named : before = none → c.optional name = .ok after

theorem Catalogue.Fills.orElse {ι : Type} {c : Catalogue ι} {name : String} {x y : Option ι}
    (h : c.optional name = .ok y) : c.Fills name x (x <|> y) := by
  cases x with
  | none => exact ⟨nofun, fun _ => h⟩
  | some i => exact ⟨fun _ hi => hi, nofun⟩

/-- The operators are those that the names stand for. -/
structure Operators.Named (names : OperatorNames) (ops : Operators) : Prop where
  conjunction : TNorm.catalogue.optional names.conjunction = .ok ops.conjunction
  disjunction : SNorm.catalogue.optional names.disjunction = .ok ops.disjunction
  implication : TNorm.catalogue.optional names.implication = .ok ops.implication
  aggregation : SNorm.catalogue.optional names.aggregation = .ok ops.aggregation
  activation : Activation.catalogue.optional names.activation = .ok ops.activation

/-- Names that are all known stand for operators, and for a defuzzifier. -/
theorem Operators.named_of_resolve {names : OperatorNames} {ops : Operators} (h : names.resolve = .ok ops) :
    ops.Named names ∧ ∃ d, Defuzzifier.catalogue.optional names.defuzzifier = .ok d := by
  simp only [OperatorNames.resolve, bind_eq_ok_iff] at h
  obtain ⟨c, hc, d, hd, i, hi, g, hg, defuzzifier, hdefuzzifier, a, ha, h⟩ := h
  cases h
  exact ⟨⟨hc, hd, hi, hg, ha⟩, defuzzifier, hdefuzzifier⟩

/-- A block after operators have been filled in; all else is what it was. -/
structure RuleBlock.Equipped (names : OperatorNames) (b b' : RuleBlock Float) : Prop where
  conjunction : TNorm.catalogue.Fills names.conjunction b.conjunction b'.conjunction
  disjunction : SNorm.catalogue.Fills names.disjunction b.disjunction b'.disjunction
  implication : TNorm.catalogue.Fills names.implication b.implication b'.implication
  activation : Activation.catalogue.Fills names.activation b.activation b'.activation
  others : b'.name = b.name ∧ b'.enabled = b.enabled ∧ b'.rules = b.rules

theorem RuleBlock.equipped_equip {names : OperatorNames} {ops : Operators} (h : ops.Named names)
    (b : RuleBlock Float) : b.Equipped names (b.equip ops) where
  conjunction := .orElse h.conjunction
  disjunction := .orElse h.disjunction
  implication := .orElse h.implication
  activation := .orElse h.activation
  others := ⟨rfl, rfl, rfl⟩

/-! ## §2 Defuzzifiers -/

theorem liftM_bind_eq_error_iff {β γ : Type} {x : Except Fault β} {g : β → γ} {e : Error} :
    (do let b ← (liftM x : Except Error β); return g b) = .error e ↔ ∃ f, x = .error f ∧ e = .fault f := by
  cases x with
  | ok b => exact ⟨nofun, nofun⟩
  | error f =>
    constructor
    · intro h
      exact ⟨f, rfl, (Except.error.inj h).symm⟩
    · rintro ⟨f', hf, rfl⟩
      cases hf
      rfl

/-- Only a resolution that is given for an integral defuzzifier, and is no whole number, is refused. -/
theorem Defuzzifier.build_eq_error_iff {name : String} {resolution : Value} {d : Option Defuzzifier} {e : Error}
    (hd : catalogue.optional name = .ok d) :
    build name resolution .none = .error e ↔
      ∃ m k f, d = some (.integral m k) ∧ resolution ≠ .none ∧ resolution.toInt = .error f ∧ e = .fault f := by
  rw [build, hd, ok_bind]
  rcases d with _ | ⟨m, k⟩ | ⟨m, type⟩
  · constructor
    · intro h
      cases h
    · rintro ⟨_, _, _, hsome, -⟩
      cases hsome
  · cases resolution with
    | none =>
      constructor
      · intro h
        cases h
      · rintro ⟨_, _, _, _, hne, _⟩
        exact absurd rfl hne
    | _ =>
      refine liftM_bind_eq_error_iff.trans ⟨?_, ?_⟩
      · rintro ⟨f, hf, rfl⟩
        refine ⟨m, k, f, rfl, ?_, hf, rfl⟩
        intro h
        cases h
      · rintro ⟨_, _, f, -, -, hf, rfl⟩
        exact ⟨f, hf, rfl⟩
  · constructor
    · intro h
      cases h
    · rintro ⟨_, _, _, hsome, -⟩
      cases hsome

/-! ## §3 Outputs -/

namespace OutputVariable

/-- An output after operators have been filled in; what is not an operator is what it was. -/
structure Equipped (names : OperatorNames) (resolution : Value) (v w : OutputVariable Float) : Prop where
  aggregation : SNorm.catalogue.Fills names.aggregation v.fuzzyOutput.aggregation w.fuzzyOutput.aggregation
  kept : ∀ d, v.defuzzifier = some d → w.defuzzifier = some d
  named : v.defuzzifier = none →
    Defuzzifier.catalogue.optional names.defuzzifier = .ok (w.defuzzifier.map Defuzzifier.plain) ∧
      ∀ d ∈ w.defuzzifier, d.Has resolution.given? none
  others : w = { v with
    fuzzyOutput := { v.fuzzyOutput with aggregation := w.fuzzyOutput.aggregation }
    defuzzifier := w.defuzzifier }

variable {names : OperatorNames} {ops : Operators} {name : String} {resolution : Value} {v : OutputVariable Float}

theorem equip_of_some {d : Defuzzifier} (h : v.defuzzifier = some d) :
    v.equip ops name resolution = .done (v.equipAggregation ops) := by
  have hequipped : (v.equipAggregation ops).defuzzifier = some d := h
  unfold equip
  dsimp only
  rw [hequipped]

theorem equip_of_build {d : Option Defuzzifier} (h : v.defuzzifier = none)
    (hbuild : Defuzzifier.build name resolution .none = .ok d) :
    v.equip ops name resolution = .done { v.equipAggregation ops with defuzzifier := d } := by
  have hequipped : (v.equipAggregation ops).defuzzifier = none := h
  unfold equip
  dsimp only
  rw [hequipped, hbuild]

/-- An output whose defuzzifier is refused has the aggregation already. -/
theorem equip_of_error {e : Error} (h : v.defuzzifier = none)
    (hbuild : Defuzzifier.build name resolution .none = .error e) :
    v.equip ops name resolution = .stop e (v.equipAggregation ops) := by
  have hequipped : (v.equipAggregation ops).defuzzifier = none := h
  unfold equip
  dsimp only
  rw [hequipped, hbuild]

/-- An output that is not refused is equipped. -/
theorem equipped_of_value {w : OutputVariable Float} (hops : ops.Named names)
    (h : (v.equip ops names.defuzzifier resolution).value = .ok w) : v.Equipped names resolution w := by
  obtain ⟨haggregation, hkept, hbuild⟩ := of_equip h
  refine ⟨haggregation ▸ .orElse hops.aggregation, hkept, fun hnone => Defuzzifier.of_build (hbuild hnone), ?_⟩
  cases hv : v.defuzzifier with
  | some d =>
    rw [equip_of_some hv] at h
    cases h
    rfl
  | none =>
    obtain ⟨d, hd⟩ : ∃ d, Defuzzifier.build names.defuzzifier resolution .none = .ok d := ⟨_, hbuild hv⟩
    rw [equip_of_build hv hd] at h
    cases h
    rfl

theorem equipAll_cons_of_done {w : OutputVariable Float} {vs : List (OutputVariable Float)}
    (h : v.equip ops name resolution = .done w) :
    equipAll ops name resolution (v :: vs) = (equipAll ops name resolution vs).map (w :: ·) := by
  rw [equipAll, h]
  exact Outcome.done_andThen _ _

theorem equipAll_cons_of_stop {e : Error} {w : OutputVariable Float} {vs : List (OutputVariable Float)}
    (h : v.equip ops name resolution = .stop e w) :
    equipAll ops name resolution (v :: vs) = .stop e (w :: vs) := by
  rw [equipAll, h]
  rfl

/-- Outputs are equipped one by one, up to the first one that has no defuzzifier, if none can be built. -/
theorem equipAll_cases (ops : Operators) (name : String) (resolution : Value) (vs : List (OutputVariable Float)) :
    ((equipAll ops name resolution vs).error = none ∧
      List.Forall₂ (fun v w => (v.equip ops name resolution).value = .ok w) vs
        (equipAll ops name resolution vs).state) ∨
    ∃ e before v after, Defuzzifier.build name resolution .none = .error e ∧ vs = before ++ v :: after ∧
      (∀ u ∈ before, u.defuzzifier ≠ none) ∧ v.defuzzifier = none ∧
      (equipAll ops name resolution vs).error = some e ∧
      (equipAll ops name resolution vs).state =
        before.map (equipAggregation ops) ++ v.equipAggregation ops :: after := by
  induction vs with
  | nil => exact .inl ⟨rfl, .nil⟩
  | cons v vs ih =>
    cases hv : v.defuzzifier with
    | some d =>
      have hw : v.equip ops name resolution = .done (v.equipAggregation ops) := equip_of_some hv
      rw [equipAll_cons_of_done hw, Outcome.error_map, Outcome.state_map]
      rcases ih with ⟨hdone, hall⟩ | ⟨e, before, u, after, hbuild, rfl, hbefore, hu, herror, hstate⟩
      · exact .inl ⟨hdone, .cons (by rw [hw]; rfl) hall⟩
      · have hkept : ∀ u ∈ v :: before, u.defuzzifier ≠ none :=
          List.forall_mem_cons.2 ⟨by rw [hv]; nofun, hbefore⟩
        refine .inr ⟨e, v :: before, u, after, hbuild, rfl, hkept, hu, herror, ?_⟩
        rw [hstate, List.map_cons, List.cons_append]
    | none =>
      cases hbuild : Defuzzifier.build name resolution .none with
      | error e =>
        rw [equipAll_cons_of_stop (equip_of_error hv hbuild)]
        exact .inr ⟨e, [], v, vs, rfl, rfl, List.forall_mem_nil _, hv, rfl, rfl⟩
      | ok d =>
        have hw : v.equip ops name resolution = .done { v.equipAggregation ops with defuzzifier := d } :=
          equip_of_build hv hbuild
        rw [equipAll_cons_of_done hw, Outcome.error_map, Outcome.state_map]
        rcases ih with ⟨hdone, hall⟩ | ⟨e, -, -, -, herror, -⟩
        · exact .inl ⟨hdone, .cons (by rw [hw]; rfl) hall⟩
        -- what can be built for one output can be built for all
        · rw [hbuild] at herror
          cases herror

end OutputVariable

/-! ## §4 Engines -/

namespace Engine

/-- A list that is changed item by item is the same where every item is. -/
theorem map_eq_self_iff {β : Type} {f : β → β} {xs : List β} : xs.map f = xs ↔ ∀ x ∈ xs, f x = x :=
  calc xs.map f = xs ↔ xs.map f = xs.map id := by rw [List.map_id]
    _ ↔ ∀ x ∈ xs, f x = x := List.map_eq_map_iff

theorem map_append_cons_eq_iff {β : Type} {f : β → β} {x : β} {xs ys : List β} :
    xs.map f ++ f x :: ys = xs ++ x :: ys ↔ ∀ y ∈ xs ++ [x], f y = y := by
  rw [← map_eq_self_iff, List.map_append, List.append_cons (xs.map f), List.append_cons xs, List.append_left_inj]
  rfl

/-- Names that are all known equip the outputs and the blocks; the outputs may stop it. -/
theorem configure_of_resolve {e : Engine Float} {names : OperatorNames} {ops : Operators} (resolution : Value)
    (h : names.resolve = .ok ops) :
    (e.configure names resolution).error =
        (OutputVariable.equipAll ops names.defuzzifier resolution e.outputs).error ∧
      (e.configure names resolution).state = { e with
        store := { e.store with
          outputs := (OutputVariable.equipAll ops names.defuzzifier resolution e.outputs).state }
        blocks := e.blocks.map (RuleBlock.equip ops) } := by
  unfold configure
  rw [h]
  dsimp only
  -- the report at the end changes nothing
  generalize OutputVariable.equipAll ops names.defuzzifier resolution e.outputs = equipped
  obtain ⟨outputs, events, error⟩ := equipped
  cases error with
  | none => exact ⟨rfl, rfl⟩
  | some err => exact ⟨rfl, rfl⟩

/-- Configuring an engine ends in one of three ways. Some name is unknown, and nothing is changed. Or an output
that has no defuzzifier is to get an integral one whose resolution is no whole number: then all blocks have their
operators, and this output and those before it their aggregation; it goes unnoticed only where none of them lacked an
operator that is named. Or all names are known, and all blocks and outputs are equipped. -/
theorem configure_cases (e : Engine Float) (names : OperatorNames) (resolution : Value) :
    (∃ err, names.resolve = .error err ∧ (e.configure names resolution).error = some err ∧
      (e.configure names resolution).state = e) ∨
    (∃ ops before v after m k f, names.resolve = .ok ops ∧
      Defuzzifier.catalogue.optional names.defuzzifier = .ok (some (.integral m k)) ∧
      resolution ≠ .none ∧ resolution.toInt = .error f ∧
      e.outputs = before ++ v :: after ∧ (∀ u ∈ before, u.defuzzifier ≠ none) ∧ v.defuzzifier = none ∧
      (e.configure names resolution).error = some (.fault f) ∧
      (e.configure names resolution).state.blocks = e.blocks.map (RuleBlock.equip ops) ∧
      (e.configure names resolution).state.outputs =
        before.map (OutputVariable.equipAggregation ops) ++ v.equipAggregation ops :: after ∧
      ((e.configure names resolution).state = e ↔
        (∀ b ∈ e.blocks, b.equip ops = b) ∧ ∀ u ∈ before ++ [v], u.equipAggregation ops = u)) ∨
    ((∃ ops, names.resolve = .ok ops) ∧ (e.configure names resolution).error = none ∧
      List.Forall₂ (RuleBlock.Equipped names) e.blocks (e.configure names resolution).state.blocks ∧
      List.Forall₂ (OutputVariable.Equipped names resolution) e.outputs
        (e.configure names resolution).state.outputs) := by
  cases hresolve : names.resolve with
  | error err =>
    have hconfigure : e.configure names resolution = .stop err e := by
      unfold configure
      rw [hresolve]
    rw [hconfigure]
    exact .inl ⟨err, rfl, rfl, rfl⟩
  | ok ops =>
    right
    obtain ⟨hops, d, hd⟩ := Operators.named_of_resolve hresolve
    obtain ⟨herror, hstate⟩ := configure_of_resolve (e := e) resolution hresolve
    have hblocks : (e.configure names resolution).state.blocks = e.blocks.map (RuleBlock.equip ops) := by
      rw [hstate]
    have houtputs : (e.configure names resolution).state.outputs =
        (OutputVariable.equipAll ops names.defuzzifier resolution e.outputs).state := by
      rw [hstate]
      rfl
    rcases OutputVariable.equipAll_cases ops names.defuzzifier resolution e.outputs with
      ⟨hdone, hall⟩ | ⟨err, before, v, after, hbuild, hvs, hbefore, hv, herr, hleft⟩
    · refine .inr ⟨⟨ops, rfl⟩, herror.trans hdone, ?_, ?_⟩
      · rw [hblocks, List.forall₂_map_right_iff]
        exact List.forall₂_same.2 fun b _ => RuleBlock.equipped_equip hops b
      · rw [houtputs]
        exact hall.imp fun v w hw => OutputVariable.equipped_of_value hops hw
    · obtain ⟨m, k, f, rfl, hresolution, hint, rfl⟩ := (Defuzzifier.build_eq_error_iff hd).1 hbuild
      refine .inl ⟨ops, before, v, after, m, k, f, rfl, hd, hresolution, hint, hvs, hbefore, hv,
        herror.trans herr, hblocks, houtputs.trans hleft, ?_⟩
      rw [← map_eq_self_iff, ← map_append_cons_eq_iff, ← hvs]
      constructor
      · intro hsame
        exact ⟨hblocks.symm.trans (congrArg Engine.blocks hsame),
          (houtputs.trans hleft).symm.trans (congrArg Engine.outputs hsame)⟩
      · rintro ⟨hsameBlocks, hsameOutputs⟩
        rw [hstate, hleft, hsameBlocks, hsameOutputs]
        rfl

end Engine

end FuzzyInference
