import FuzzyInference.Proofs.Loading

/-!
# Sections and settings

The operators of an output or a rule block may be named in its own section of a document, or once for all in the
settings of the engine. Three steps decide what it gets: its section is read, the engine is configured, and
weighted defuzzifiers whose type is automatic get the type of the settings.

The classes of operators follow one law: what the section names, else what the settings name. The parameters of
a defuzzifier do not. A resolution comes from where the class is named, and from nowhere else, so that a section
which names only a class has the default resolution, whatever the settings say, and one which gives only a
resolution gives it in vain. A type that a section gives comes with the class as well; but the settings replace it
when it is the automatic one.

The plan of this module:

* operators that a section or the settings name;
* what the three steps do to outputs and blocks;
* outputs and blocks of a document.

## Main statements

* `Engine.operators_ofDocument`: where the operators of a document come from
-/

namespace FuzzyInference

open Checked

/-! ## §1 Operators that are named -/

namespace Catalogue

variable {ι : Type}

/-- The name stands for the member, or for none if it is empty. -/
def Names (c : Catalogue ι) (name : Except Fault String) (x : Option ι) : Prop :=
  ∃ n, name = .ok n ∧ c.optional n = .ok x

/-- The member is the one that the first name stands for, or else the second one. -/
def Chosen (c : Catalogue ι) (own common : Except Fault String) (x : Option ι) : Prop :=
  ∃ n m, own = .ok n ∧ common = .ok m ∧ c.optional (if n.isEmpty then m else n) = .ok x

theorem optional_of_isEmpty {c : Catalogue ι} {n : String} {x : Option ι} (hn : n.isEmpty = true)
    (h : c.optional n = .ok x) : x = none := by
  rw [optional, if_pos hn] at h
  exact (Except.ok.inj h).symm

theorem find?_of_optional {c : Catalogue ι} {n : String} {i : ι} (h : c.optional n = .ok (some i)) :
    c.find? n = some i := by
  unfold optional at h
  split at h
  · cases h
  · obtain ⟨j, hj, hji⟩ := map_eq_ok_iff.1 h
    cases hji
    unfold get at hj
    split at hj
    · rename_i k hk
      cases hj
      exact hk
    · cases hj

/-- A name that is not empty stands for something. -/
theorem exists_of_optional {c : Catalogue ι} {n : String} {x : Option ι} (hn : ¬n.isEmpty = true)
    (h : c.optional n = .ok x) : ∃ i, x = some i := by
  rw [optional, if_neg hn] at h
  obtain ⟨i, -, rfl⟩ := map_eq_ok_iff.1 h
  exact ⟨i, rfl⟩

/-- A member in front of another is the one that two names choose. -/
theorem Names.orElse {c : Catalogue ι} {own common : Except Fault String} {x y : Option ι}
    (hx : c.Names own x) (hy : c.Names common y) : c.Chosen own common (x <|> y) := by
  obtain ⟨n, hn, hx⟩ := hx
  obtain ⟨m, hm, hy⟩ := hy
  refine ⟨n, m, hn, hm, ?_⟩
  split
  next hempty =>
    rw [optional_of_isEmpty hempty hx]
    exact hy
  next hempty =>
    obtain ⟨i, rfl⟩ := exists_of_optional hempty hx
    exact hx

end Catalogue

namespace Value

/-- The value, unless it is nothing. -/
def given? : Value → Option Value
  | none => Option.none
  | v => some v

/-- The value, unless it counts as absent. -/
def present? (v : Value) : Option Value := if v.isPresent then some v else Option.none

/-- The resolution that a table gives. -/
def resolution? (t : Value) : Option Value := (t.entryOrNone "resolution").given?

/-- The type of weighted defuzzifiers that a table gives. -/
def type? (t : Value) : Option Value := (t.entryOrNone "type").present?

/-- The table names the class of a defuzzifier. -/
def namesDefuzzifier (t : Value) : Bool :=
  match t.entryName "defuzzifier" with
  | .ok n => !n.isEmpty
  | .error _ => false

/-- The name of the activation method that settings give. -/
def activationName (s : Value) : Except Fault String :=
  ((s.entry? "activation").getD (.text OperatorNames.defaultActivation)).nameText

end Value

namespace Defuzzifier

/-- The resolution of a value, or the default one. -/
def Resolves : Option Value → Int → Prop
  | none, k => k = defaultResolution
  | some v, k => v.toInt = .ok k

/-- The type of a value, or the automatic one. -/
def Types : Option Value → WeightedType → Prop
  | none, type => type = .automatic
  | some v, type => WeightedType.ofValue v = .ok type

/-- The defuzzifier with default parameters. -/
def plain : Defuzzifier → Defuzzifier
  | integral m _ => integral m defaultResolution
  | weighted m _ => weighted m .automatic

/-- The parameters are those of a resolution and of a type. -/
def Has (resolution type : Option Value) : Defuzzifier → Prop
  | integral _ k => Resolves resolution k
  | weighted _ ty => Types type ty

/-- The defuzzifier with another type in the place of the automatic one. -/
def settled (type : WeightedType) : Defuzzifier → Defuzzifier
  | weighted m .automatic => weighted m type
  | d => d

theorem plain_settled (type : WeightedType) (d : Defuzzifier) : (d.settled type).plain = d.plain := by
  cases d with
  | integral m k => rfl
  | weighted m ty => cases ty <;> rfl

theorem eq_of_settled_integral {type : WeightedType} {d : Defuzzifier} {m : IntegralMethod} {k : Int}
    (h : d.settled type = integral m k) : d = integral m k := by
  cases d with
  | integral m' k' => exact h
  | weighted m' ty => cases ty <;> cases h

/-- Only the automatic type is replaced. -/
theorem exists_of_settled_weighted {type ty : WeightedType} {d : Defuzzifier} {m : WeightedMethod}
    (h : d.settled type = weighted m ty) :
    ∃ own, d = weighted m own ∧ if own = .automatic then ty = type else ty = own := by
  cases d with
  | integral m' k => cases h
  | weighted m' own =>
    refine ⟨own, ?_⟩
    cases own with
    | automatic =>
      cases h
      exact ⟨rfl, rfl⟩
    | _ =>
      cases h
      exact ⟨rfl, rfl⟩

theorem plain_of_find? {n : String} {d : Defuzzifier} (h : catalogue.find? n = some d) : d.plain = d := by
  obtain ⟨before, after, hentries, -⟩ := List.lookup_eq_some_iff.1 h
  have hmem : (n, d) ∈ catalogue.entries := by
    rw [hentries]
    exact List.mem_append_right _ List.mem_cons_self
  have hall : ∀ p ∈ catalogue.entries, p.2.plain = p.2 := by decide
  exact hall _ hmem

section Build

variable {n : String} {resolution type : Value} {d : Option Defuzzifier}

/-- An integral defuzzifier takes the resolution that is given. -/
theorem exists_of_build_integral {m : IntegralMethod} {k : Int}
    (hfound : catalogue.optional n = .ok (some (integral m k))) (h : build n resolution type = .ok d) :
    ∃ k', d = some (integral m k') ∧ Resolves resolution.given? k' := by
  rw [build, hfound, ok_bind] at h
  cases resolution with
  | none =>
    cases h
    -- the catalogue has the default resolution
    have hplain := plain_of_find? (Catalogue.find?_of_optional hfound)
    cases hplain
    exact ⟨_, rfl, rfl⟩
  | _ =>
    obtain ⟨k', hk', h⟩ := bind_eq_ok_iff.1 h
    cases h
    exact ⟨k', rfl, liftM_eq_ok_iff.1 hk'⟩

/-- A weighted one takes the type. -/
theorem exists_of_build_weighted {m : WeightedMethod} {ty : WeightedType}
    (hfound : catalogue.optional n = .ok (some (weighted m ty))) (h : build n resolution type = .ok d) :
    ∃ ty', d = some (weighted m ty') ∧ Types type.present? ty' := by
  rw [build, hfound, ok_bind] at h
  dsimp only at h
  rw [Value.present?]
  split at h
  next hpresent =>
    obtain ⟨ty', hty', h⟩ := bind_eq_ok_iff.1 h
    cases h
    rw [if_pos hpresent]
    exact ⟨ty', rfl, hty'⟩
  next habsent =>
    cases h
    rw [if_neg habsent]
    have hplain := plain_of_find? (Catalogue.find?_of_optional hfound)
    cases hplain
    exact ⟨_, rfl, rfl⟩

/-- What is built of a name has its class, and the parameters that are given with it. -/
theorem of_build (h : build n resolution type = .ok d) :
    catalogue.optional n = .ok (d.map plain) ∧ ∀ x ∈ d, x.Has resolution.given? type.present? := by
  obtain ⟨found, hfound, hrest⟩ := bind_eq_ok_iff.1 h
  cases found with
  | none =>
    cases hrest
    exact ⟨hfound, nofun⟩
  | some x =>
    have hplain := plain_of_find? (Catalogue.find?_of_optional hfound)
    cases x with
    | integral m k =>
      obtain ⟨k', rfl, hk'⟩ := exists_of_build_integral hfound h
      refine ⟨by rw [hfound, ← hplain]; rfl, fun x hx => ?_⟩
      cases hx
      exact hk'
    | weighted m ty =>
      obtain ⟨ty', rfl, hty'⟩ := exists_of_build_weighted hfound h
      refine ⟨by rw [hfound, ← hplain]; rfl, fun x hx => ?_⟩
      cases hx
      exact hty'

end Build

end Defuzzifier

/-! ## §2 Outputs and blocks -/

namespace OutputVariable

/-- The output has the operators of a section and no others. -/
structure Reads (t : Value) (v : OutputVariable Float) : Prop where
  aggregation : SNorm.catalogue.Names (t.entryName "aggregation") v.fuzzyOutput.aggregation
  defuzzifier : ∃ n, t.entryName "defuzzifier" = .ok n ∧
    Defuzzifier.build n (t.entryOrNone "resolution") (t.entryOrNone "type") = .ok v.defuzzifier

theorem reads_ofTable {r : TermRegistry} {t : Value} {v : OutputVariable Float} (h : ofTable r t = .ok v) :
    Reads t v := by
  simp only [ofTable, bind_eq_ok_iff] at h
  obtain ⟨name, -, _, -, base, -, _, -, aname, ha, aggregation, hagg, dname, hd, defuzzifier, hdef, h⟩ := h
  cases h
  exact ⟨⟨aname, liftM_eq_ok_iff.1 ha, hagg⟩, dname, liftM_eq_ok_iff.1 hd, hdef⟩

/-- An output keeps the operators that it has. -/
theorem of_equip {ops : Operators} {name : String} {resolution : Value} {v w : OutputVariable Float}
    (h : (v.equip ops name resolution).value = .ok w) :
    w.fuzzyOutput.aggregation = (v.fuzzyOutput.aggregation <|> ops.aggregation) ∧
      (∀ d, v.defuzzifier = some d → w.defuzzifier = some d) ∧
      (v.defuzzifier = none → Defuzzifier.build name resolution .none = .ok w.defuzzifier) := by
  have hequipped : (v.equipAggregation ops).defuzzifier = v.defuzzifier := rfl
  unfold OutputVariable.equip at h
  dsimp only at h
  rw [hequipped] at h
  split at h
  · rename_i d hd
    cases h
    refine ⟨rfl, fun d' hd' => hequipped.trans hd', fun hnone => ?_⟩
    rw [hd] at hnone
    cases hnone
  · rename_i hnone
    split at h
    · rename_i d hd
      cases h
      refine ⟨rfl, fun d' hd' => ?_, fun _ => hd⟩
      rw [hnone] at hd'
      cases hd'
    · cases h

theorem defuzzifier_settleType (type : WeightedType) (v : OutputVariable Float) :
    (Engine.settleType type v).defuzzifier = v.defuzzifier.map (Defuzzifier.settled type) := by
  unfold Engine.settleType
  split
  next m hv =>
    rw [hv]
    rfl
  next hv =>
    cases hd : v.defuzzifier with
    | none => rfl
    | some d =>
      cases d with
      | integral m k => rfl
      | weighted m ty =>
        cases ty with
        | automatic => exact absurd hd (hv m)
        | _ => rfl

theorem aggregation_settleType (type : WeightedType) (v : OutputVariable Float) :
    (Engine.settleType type v).fuzzyOutput = v.fuzzyOutput := by
  unfold Engine.settleType
  split
  · rfl
  · rfl

/-- The operators of the output are those of a section, or else of the settings. -/
structure Follows (s t : Value) (v : OutputVariable Float) : Prop where
  aggregation : SNorm.catalogue.Chosen (t.entryName "aggregation") (s.entryName "aggregation")
    v.fuzzyOutput.aggregation
  method : Defuzzifier.catalogue.Chosen (t.entryName "defuzzifier") (s.entryName "defuzzifier")
    (v.defuzzifier.map Defuzzifier.plain)
  /-- A resolution comes with the class. -/
  resolution : ∀ m k, v.defuzzifier = some (.integral m k) →
    Defuzzifier.Resolves (if t.namesDefuzzifier then t.resolution? else s.resolution?) k
  /-- A type comes with the class, but the settings replace the automatic one. -/
  type : ∀ m ty, v.defuzzifier = some (.weighted m ty) →
    ∃ own, Defuzzifier.Types (if t.namesDefuzzifier then t.type? else none) own ∧
      if own = .automatic then Defuzzifier.Types s.type? ty else ty = own

/-- The parameters of a defuzzifier are given where its class is named, or not at all: a section that names no class
gives none, one that names a class leaves no resolution to the settings, and one that asks for the automatic type
is not overruled. -/
structure Undivided (s t : Value) : Prop where
  unnamed : t.namesDefuzzifier = false → t.resolution? = none ∧ t.type? = none
  resolution : t.namesDefuzzifier = true → t.resolution? = none → s.resolution? = none
  type : ∀ v, t.type? = some v → WeightedType.ofValue v = .ok .automatic → s.type? = none

/-- Then the resolution is that of the section, or else that of the settings. -/
theorem Follows.resolution_of_undivided {s t : Value} {v : OutputVariable Float} (h : v.Follows s t)
    (hs : Undivided s t) {m : IntegralMethod} {k : Int} (hd : v.defuzzifier = some (.integral m k)) :
    Defuzzifier.Resolves (t.resolution?.or s.resolution?) k := by
  have hk := h.resolution m k hd
  cases hnamed : t.namesDefuzzifier with
  | false =>
    rw [hnamed] at hk
    rw [(hs.unnamed hnamed).1, Option.none_or]
    exact hk
  | true =>
    rw [hnamed] at hk
    cases hgiven : t.resolution? with
    | some x =>
      rw [hgiven] at hk
      exact hk
    | none =>
      rw [hgiven] at hk
      rw [hs.resolution hnamed hgiven]
      exact hk

/-- So is the type. -/
theorem Follows.type_of_undivided {s t : Value} {v : OutputVariable Float} (h : v.Follows s t)
    (hs : Undivided s t) {m : WeightedMethod} {ty : WeightedType} (hd : v.defuzzifier = some (.weighted m ty)) :
    Defuzzifier.Types (t.type?.or s.type?) ty := by
  obtain ⟨own, hown, hty⟩ := h.type m ty hd
  cases hgiven : t.type? with
  | none =>
    -- no type is given with the class
    have hautomatic : own = .automatic := by
      rw [hgiven, ite_self] at hown
      exact hown
    rw [if_pos hautomatic] at hty
    exact hty
  | some x =>
    have hnamed : t.namesDefuzzifier = true := by
      by_contra hnot
      rw [(hs.unnamed (Bool.not_eq_true _ ▸ hnot)).2] at hgiven
      cases hgiven
    rw [hnamed, hgiven] at hown
    split at hty
    next hautomatic =>
      rw [hautomatic] at hown
      rw [hs.type x hgiven hown] at hty
      obtain rfl : ty = .automatic := hty
      exact hown
    next => exact hty ▸ hown

/-- The defuzzifier of an output that was read and equipped. -/
theorem of_reads_equip {s t : Value} {ops : Operators} {name : String} {v w : OutputVariable Float}
    (hv : Reads t v) (hname : s.entryName "defuzzifier" = .ok name)
    (hw : (v.equip ops name (s.entryOrNone "resolution")).value = .ok w) :
    Defuzzifier.catalogue.Chosen (t.entryName "defuzzifier") (s.entryName "defuzzifier")
        (w.defuzzifier.map Defuzzifier.plain) ∧
      ∀ d ∈ w.defuzzifier, d.Has (if t.namesDefuzzifier then t.resolution? else s.resolution?)
        (if t.namesDefuzzifier then t.type? else none) := by
  obtain ⟨n, hn, hbuild⟩ := hv.defuzzifier
  obtain ⟨hfound, hhas⟩ := Defuzzifier.of_build hbuild
  obtain ⟨-, hkeeps, hfills⟩ := of_equip hw
  have hnames : t.namesDefuzzifier = !n.isEmpty := by rw [Value.namesDefuzzifier, hn]
  cases hempty : n.isEmpty with
  | true =>
    -- the section names no class, so that the settings decide
    have hnone : v.defuzzifier = none := by
      simpa using Catalogue.optional_of_isEmpty hempty hfound
    obtain ⟨hcommon, hparameters⟩ := Defuzzifier.of_build (hfills hnone)
    rw [hnames, hempty]
    refine ⟨⟨n, name, hn, hname, ?_⟩, hparameters⟩
    rw [if_pos hempty]
    exact hcommon
  | false =>
    have hnot : ¬n.isEmpty = true := by rw [hempty]; exact Bool.false_ne_true
    obtain ⟨d, hd⟩ : ∃ d, v.defuzzifier = some d := by
      obtain ⟨i, hi⟩ := Catalogue.exists_of_optional hnot hfound
      obtain ⟨d, hd, -⟩ := Option.map_eq_some_iff.1 hi
      exact ⟨d, hd⟩
    rw [hnames, hempty, hkeeps d hd]
    refine ⟨⟨n, name, hn, hname, ?_⟩, ?_⟩
    · rw [if_neg hnot, hfound, hd]
    · rw [hd] at hhas
      exact hhas

/-- An output that was read, equipped and settled follows its section and the settings. -/
theorem follows_of_steps {s t : Value} {ops : Operators} {name : String} {type : WeightedType}
    {v w : OutputVariable Float} (hv : Reads t v)
    (haggregation : SNorm.catalogue.Names (s.entryName "aggregation") ops.aggregation)
    (hname : s.entryName "defuzzifier" = .ok name)
    (hw : (v.equip ops name (s.entryOrNone "resolution")).value = .ok w)
    (htype : Defuzzifier.Types s.type? type) : Follows s t (Engine.settleType type w) := by
  obtain ⟨hmethod, hhas⟩ := of_reads_equip hv hname hw
  refine ⟨?_, ?_, fun m k hd => ?_, fun m ty hd => ?_⟩
  · rw [aggregation_settleType, (of_equip hw).1]
    exact hv.aggregation.orElse haggregation
  · have hplain : Defuzzifier.plain ∘ Defuzzifier.settled type = Defuzzifier.plain :=
      funext (Defuzzifier.plain_settled type)
    rw [defuzzifier_settleType, Option.map_map, hplain]
    exact hmethod
  · rw [defuzzifier_settleType] at hd
    obtain ⟨d, hd, hsettled⟩ := Option.map_eq_some_iff.1 hd
    rw [Defuzzifier.eq_of_settled_integral hsettled] at hd
    exact hhas _ hd
  · rw [defuzzifier_settleType] at hd
    obtain ⟨d, hd, hsettled⟩ := Option.map_eq_some_iff.1 hd
    obtain ⟨own, rfl, hty⟩ := Defuzzifier.exists_of_settled_weighted hsettled
    refine ⟨own, hhas _ hd, ?_⟩
    split at hty
    next hautomatic =>
      rw [if_pos hautomatic, hty]
      exact htype
    next hgiven =>
      rw [if_neg hgiven]
      exact hty

end OutputVariable

namespace RuleBlock

/-- The block has the operators of a section and no others. -/
structure Reads (t : Value) (b : RuleBlock Float) : Prop where
  conjunction : TNorm.catalogue.Names (t.entryName "conjunction") b.conjunction
  disjunction : SNorm.catalogue.Names (t.entryName "disjunction") b.disjunction
  implication : TNorm.catalogue.Names (t.entryName "implication") b.implication
  activation : ∃ n, t.entryName "activation" = .ok n ∧
    Activation.build n (t.entryOrNone "activation_parameters") = .ok b.activation

theorem reads_ofTable {inventory : Vocabulary} {t : Value} {b : RuleBlock Float}
    (h : ofTable inventory t = .ok b) : Reads t b := by
  simp only [ofTable, bind_eq_ok_iff] at h
  obtain ⟨cname, hc, conjunction, hconjunction, dname, hd, disjunction, hdisjunction, iname, hi, implication,
    himplication, aname, ha, activation, hactivation, _, -, h⟩ := h
  cases h
  exact ⟨⟨cname, liftM_eq_ok_iff.1 hc, hconjunction⟩, ⟨dname, liftM_eq_ok_iff.1 hd, hdisjunction⟩,
    ⟨iname, liftM_eq_ok_iff.1 hi, himplication⟩, aname, liftM_eq_ok_iff.1 ha, hactivation⟩

/-- The operators of the block are those of a section, or else of the settings. -/
structure Follows (s t : Value) (b : RuleBlock Float) : Prop where
  conjunction : TNorm.catalogue.Chosen (t.entryName "conjunction") (s.entryName "conjunction") b.conjunction
  disjunction : SNorm.catalogue.Chosen (t.entryName "disjunction") (s.entryName "disjunction") b.disjunction
  implication : TNorm.catalogue.Chosen (t.entryName "implication") (s.entryName "implication") b.implication
  activation : ∃ n m, t.entryName "activation" = .ok n ∧ s.activationName = .ok m ∧
    if n.isEmpty then Activation.catalogue.optional m = .ok b.activation
    else Activation.build n (t.entryOrNone "activation_parameters") = .ok b.activation

end RuleBlock

/-- The operators are those that the settings name. -/
structure Operators.Reads (s : Value) (ops : Operators) : Prop where
  conjunction : TNorm.catalogue.Names (s.entryName "conjunction") ops.conjunction
  disjunction : SNorm.catalogue.Names (s.entryName "disjunction") ops.disjunction
  implication : TNorm.catalogue.Names (s.entryName "implication") ops.implication
  aggregation : SNorm.catalogue.Names (s.entryName "aggregation") ops.aggregation
  activation : Activation.catalogue.Names s.activationName ops.activation

theorem Operators.reads_of_resolve {s : Value} {names : OperatorNames} {ops : Operators}
    (hnames : OperatorNames.ofTable s = .ok names) (hops : names.resolve = .ok ops) :
    ops.Reads s ∧ s.entryName "defuzzifier" = .ok names.defuzzifier := by
  simp only [OperatorNames.ofTable, bind_eq_ok_iff] at hnames
  obtain ⟨conjunction, hconjunction, disjunction, hdisjunction, implication, himplication, aggregation,
    haggregation, defuzzifier, hdefuzzifier, activation, hactivation, hnames⟩ := hnames
  cases hnames
  simp only [OperatorNames.resolve, bind_eq_ok_iff] at hops
  obtain ⟨c, hc, d, hd, i, hi, g, hg, _, -, a, ha, hops⟩ := hops
  cases hops
  exact ⟨⟨⟨_, hconjunction, hc⟩, ⟨_, hdisjunction, hd⟩, ⟨_, himplication, hi⟩, ⟨_, haggregation, hg⟩,
    _, hactivation, ha⟩, hdefuzzifier⟩

/-- What is built of a name is a method, unless the name is empty. -/
theorem Activation.isSome_of_build {n : String} {parameters : Value} {a : Option (Activation Float)}
    (h : build n parameters = .ok a) : a.isSome = !n.isEmpty := by
  obtain ⟨found, hfound, h⟩ := bind_eq_ok_iff.1 h
  cases hempty : n.isEmpty with
  | true =>
    cases Catalogue.optional_of_isEmpty hempty hfound
    cases h
    rfl
  | false =>
    obtain ⟨m, rfl⟩ := Catalogue.exists_of_optional (by rw [hempty]; exact Bool.false_ne_true) hfound
    dsimp only at h
    split at h
    · cases h
      rfl
    · split at h
      · obtain ⟨m', -, h⟩ := bind_eq_ok_iff.1 h
        cases h
        rfl
      · obtain ⟨words, -, h⟩ := bind_eq_ok_iff.1 h
        obtain ⟨m', -, h⟩ := bind_eq_ok_iff.1 h
        cases h
        rfl

/-- A block that was read and equipped follows its section and the settings. -/
theorem RuleBlock.follows_of_steps {s t : Value} {ops : Operators} {b : RuleBlock Float} (hb : Reads t b)
    (hops : ops.Reads s) : Follows s t (b.equip ops) := by
  refine ⟨hb.conjunction.orElse hops.conjunction, hb.disjunction.orElse hops.disjunction,
    hb.implication.orElse hops.implication, ?_⟩
  obtain ⟨n, hn, hbuild⟩ := hb.activation
  obtain ⟨m, hm, hcommon⟩ := hops.activation
  refine ⟨n, m, hn, hm, ?_⟩
  have hsome := Activation.isSome_of_build hbuild
  have hequipped : (b.equip ops).activation = (b.activation <|> ops.activation) := rfl
  rw [hequipped]
  cases ha : b.activation with
  | none =>
    rw [ha, Option.isSome_none, eq_comm, Bool.not_eq_false'] at hsome
    rw [if_pos hsome]
    exact hcommon
  | some a =>
    rw [ha, Option.isSome_some, eq_comm, Bool.not_eq_true'] at hsome
    rw [if_neg (by rw [hsome]; exact Bool.false_ne_true), hbuild, ha]
    rfl

/-! ## §3 Engines of documents -/

/-- What relates lists side by side in two steps relates the first and the last. -/
theorem forall₂_trans {α β γ : Type} {R : α → β → Prop} {S : β → γ → Prop} {T : α → γ → Prop}
    {xs : List α} {ys : List β} {zs : List γ} (hR : List.Forall₂ R xs ys) (hS : List.Forall₂ S ys zs)
    (h : ∀ x y z, R x y → S y z → T x z) : List.Forall₂ T xs zs := by
  induction hR generalizing zs with
  | nil =>
    cases hS
    exact .nil
  | cons hr _ ih =>
    cases hS with
    | cons hs hrest => exact .cons (h _ _ _ hr hs) (ih hrest)

namespace Engine

/-- What tables describe is added in order at the end of a list. -/
theorem forall₂_of_foldlM {ι κ : Type} (add : Engine Float → ι → Engine Float) (get : Engine Float → List κ)
    {describe : Engine Float → Value → Except Error ι} {R : Value → κ → Prop}
    (hadd : ∀ e t x, describe e t = .ok x → ∃ y, R t y ∧ get (add e x) = get e ++ [y])
    {ts : List Value} {e e' : Engine Float} (h : ts.foldlM (fun e t => add e <$> describe e t) e = .ok e') :
    ∃ ys, List.Forall₂ R ts ys ∧ get e' = get e ++ ys := by
  induction ts generalizing e with
  | nil =>
    cases h
    exact ⟨[], .nil, (List.append_nil _).symm⟩
  | cons t ts ih =>
    rw [List.foldlM_cons] at h
    obtain ⟨e₁, hstep, hrest⟩ := bind_eq_ok_iff.1 h
    obtain ⟨x, hx, rfl⟩ := map_eq_ok_iff.1 hstep
    obtain ⟨y, hy, hget⟩ := hadd e t x hx
    obtain ⟨ys, hys, hall⟩ := ih hrest
    exact ⟨y :: ys, .cons hy hys, by rw [hall, hget, List.append_assoc, List.singleton_append]⟩

/-- Every output and every block is read from its section. -/
theorem reads_assemble {r : TermRegistry} {doc : Value} {e : Engine Float} (h : assemble r doc = .ok e) :
    List.Forall₂ OutputVariable.Reads (doc.entryItems "output") e.outputs ∧
      List.Forall₂ RuleBlock.Reads (doc.entryItems "rule_block") e.blocks := by
  obtain ⟨e₁, hinputs, h⟩ := bind_eq_ok_iff.1 h
  obtain ⟨e₂, houtputs, hblocks⟩ := bind_eq_ok_iff.1 h
  have h₁ : e₁.outputs = [] := eq_of_foldlM addInput outputs (fun _ _ => rfl) hinputs
  have h₂ : e₂.blocks = [] :=
    (eq_of_foldlM addOutput Engine.blocks (fun _ _ => rfl) houtputs).trans
      (eq_of_foldlM addInput Engine.blocks (fun _ _ => rfl) hinputs)
  have h₃ : e.outputs = e₂.outputs := eq_of_foldlM addBlock outputs (fun _ _ => rfl) hblocks
  -- an identity is no operator
  obtain ⟨vs, hvs, hget⟩ := forall₂_of_foldlM addOutput outputs (R := OutputVariable.Reads)
    (fun e t x hx => ⟨x.modify fun w => { w with id := e.store.nextId },
      ⟨(OutputVariable.reads_ofTable hx).aggregation, (OutputVariable.reads_ofTable hx).defuzzifier⟩, rfl⟩) houtputs
  obtain ⟨bs, hbs, hget'⟩ := forall₂_of_foldlM addBlock Engine.blocks (R := RuleBlock.Reads)
    (fun e t b hb => ⟨b, RuleBlock.reads_ofTable hb, rfl⟩) hblocks
  rw [h₃, hget, h₁, hget', h₂]
  exact ⟨hvs, hbs⟩

/-- Configuring equips outputs and blocks one by one. -/
theorem exists_of_configureBy {e e' : Engine Float} {s : Value} (h : (e.configureBy s).value = .ok e') :
    ∃ ops name, Operators.Reads s ops ∧ s.entryName "defuzzifier" = .ok name ∧
      List.Forall₂ (fun v w => (v.equip ops name (s.entryOrNone "resolution")).value = .ok w)
        e.outputs e'.outputs ∧
      e'.blocks = e.blocks.map (RuleBlock.equip ops) := by
  unfold configureBy configure at h
  split at h
  · cases h
  · rename_i names hnames
    split at h
    · cases h
    · rename_i ops hops
      rw [Outcome.value_andThen, Outcome.value_map, OutputVariable.value_equipAll] at h
      obtain ⟨e₁, hequipped, h⟩ := bind_eq_ok_iff.1 h
      obtain ⟨ws, hws, rfl⟩ := map_eq_ok_iff.1 hequipped
      cases h
      obtain ⟨hreads, hname⟩ := Operators.reads_of_resolve hnames hops
      exact ⟨ops, names.defuzzifier, hreads, hname, (mapM_eq_ok_iff _ _ _).1 hws, rfl⟩

theorem settleType_automatic (v : OutputVariable Float) : settleType .automatic v = v := by
  unfold settleType
  split
  next m hv => rw [← hv]
  next => rfl

/-- The type of the settings, or the automatic one, takes the place of the automatic one. -/
theorem exists_of_settleTypes {name : Value} {e e' : Engine Float} (h : (settleTypes name e).value = .ok e') :
    ∃ type, Defuzzifier.Types name.present? type ∧ e'.outputs = e.outputs.map (settleType type) ∧
      e'.blocks = e.blocks := by
  unfold settleTypes at h
  cases hpresent : name.isPresent with
  | false =>
    rw [hpresent] at h
    cases h
    refine ⟨.automatic, ?_, ?_, rfl⟩
    · rw [Value.present?, hpresent]
      exact rfl
    · exact ((List.map_congr_left fun v _ => settleType_automatic v).trans (List.map_id' _)).symm
  | true =>
    rw [hpresent] at h
    dsimp only at h
    split at h
    · contradiction
    · split at h
      · cases h
      · rename_i type htype
        cases h
        exact ⟨type, by rw [Value.present?, if_pos hpresent]; exact htype, rfl, rfl⟩

theorem state_loadChecked (strict : Bool) (e : Engine Float) : (loadChecked strict e).state = e.loadRules.1 := by
  unfold loadChecked
  dsimp only
  split
  · rfl
  · rfl

/-- Loading rules changes no operators. -/
theorem follows_loadAll {s t : Value} {b : RuleBlock Float} (h : b.Follows s t) (v : Vocabulary) :
    (b.loadAll v).1.Follows s t :=
  ⟨h.conjunction, h.disjunction, h.implication, h.activation⟩

/-- The operators of every output and block of a document are those of its section, or else of the settings. The
parameters of a defuzzifier follow the same law where the section is undivided. -/
theorem operators_ofDocument {r : TermRegistry} {strict : Bool} {doc : Value} {e : Engine Float}
    (h : (ofDocument r strict doc).value = .ok e) :
    List.Forall₂ (OutputVariable.Follows (settings doc)) (doc.entryItems "output") e.outputs ∧
    List.Forall₂ (RuleBlock.Follows (settings doc)) (doc.entryItems "rule_block") e.blocks ∧
    List.Forall₂ (fun t v => OutputVariable.Undivided (settings doc) t →
      (∀ m k, v.defuzzifier = some (.integral m k) →
        Defuzzifier.Resolves (t.resolution?.or (settings doc).resolution?) k) ∧
      ∀ m ty, v.defuzzifier = some (.weighted m ty) →
        Defuzzifier.Types (t.type?.or (settings doc).type?) ty) (doc.entryItems "output") e.outputs := by
  rw [value_ofDocument] at h
  obtain ⟨e₃, hprepared, hloaded⟩ := bind_eq_ok_iff.1 h
  obtain ⟨e₁, hassembled, hprepared⟩ := bind_eq_ok_iff.1 hprepared
  obtain ⟨e₂, hconfigured, hsettled⟩ := bind_eq_ok_iff.1 hprepared
  obtain ⟨-, rfl⟩ := Outcome.value_eq_ok_iff.1 hloaded
  obtain ⟨hvs, hbs⟩ := reads_assemble hassembled
  obtain ⟨ops, name, hops, hname, hequipped, hblocks⟩ := exists_of_configureBy hconfigured
  obtain ⟨type, htype, houtputs, hsame⟩ := exists_of_settleTypes hsettled
  rw [state_loadChecked]
  have hus : e₃.loadRules.1.outputs = e₂.outputs.map (settleType type) := houtputs
  have hcs : e₃.loadRules.1.blocks = e₁.blocks.map fun b => ((b.equip ops).loadAll e₃.vocabulary).1 := by
    rw [fst_loadRules, hsame, hblocks, List.map_map]
    rfl
  have hfollows : List.Forall₂ (OutputVariable.Follows (settings doc)) (doc.entryItems "output")
      e₃.loadRules.1.outputs := by
    rw [hus, List.forall₂_map_right_iff]
    exact forall₂_trans hvs hequipped fun t v w hv hw =>
      OutputVariable.follows_of_steps hv hops.aggregation hname hw htype
  refine ⟨hfollows, ?_, hfollows.imp fun t v hv hs =>
    ⟨fun m k => hv.resolution_of_undivided hs, fun m ty => hv.type_of_undivided hs⟩⟩
  rw [hcs, List.forall₂_map_right_iff]
  exact hbs.imp fun t b hb => follows_loadAll (RuleBlock.follows_of_steps hb hops) _

/-- A document whose settings ask for a coarse grid. One output names a class of its own, the other gives a
resolution of its own. -/
def coarseDocument : Value :=
  .table
    [("engine", .table [("defuzzifier", .text "Centroid"), ("resolution", .int 50)]),
      ("output", .list
        [.table [("name", .text "Power"), ("defuzzifier", .text "Bisector")],
          .table [("name", .text "Heat"), ("resolution", .int 20)]])]

/-- The first output does not get the resolution of the settings, nor the second one its own. -/
theorem operators_ofDocument_coarse :
    ∃ e, (ofDocument .standard true coarseDocument).value = .ok e ∧
      e.outputs.map (fun v => v.defuzzifier) = [some (.integral .bisector 200), some (.integral .centroid 50)] ∧
      List.Forall₂ (OutputVariable.Follows (settings coarseDocument)) (coarseDocument.entryItems "output")
        e.outputs ∧
      (settings coarseDocument).resolution?.isSome = true := by
  have hdone : (ofDocument .standard true coarseDocument).error = none := by decide +kernel
  have hvalue := Outcome.value_of_error_eq_none hdone
  exact ⟨_, hvalue, by decide +kernel, (operators_ofDocument hvalue).1, by decide +kernel⟩

end Engine

end FuzzyInference
