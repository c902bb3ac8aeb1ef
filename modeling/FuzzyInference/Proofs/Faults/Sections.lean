import FuzzyInference.Proofs.Decimal.Parts
import FuzzyInference.Proofs.Faults.Entries
import FuzzyInference.Proofs.Rules.Coded

/-!
# Faults of sections

A section of a document describes a variable or a rule block. It is read entry by entry, and what cannot be used is
refused by an error of the configuration. Here is the condition for each part of a section to fault instead: it
follows the order in which the entries are read, for whatever is refused first decides. Rows of codes, the number
of rules to fire and resolutions fault where a number is not finite; texts and scalars fault where a whole number is
too long or too large; a variable without a name faults at once.

The plan of this module:

* rules in codes;
* operators, activation methods and defuzzifiers;
* terms;
* variables;
* rule blocks.

## Main statements

* `CodedRule.configures_ofCodes`: a row of codes
* `Activation.configures_build`, `Defuzzifier.configures_build`, `TermRegistry.configures_build`: what is built by name
* `Variable.configures_ofTable`, `OutputVariable.configures_ofTable`, `RuleBlock.configures_ofTable`: sections
-/

namespace FuzzyInference

open Scalar Checked

/-! ## §1 Rules in codes -/

namespace CodedRule

open Value (WholeFaults)

theorem exists_wholePart {code : Float} (h : Scalar.isFinite code = true) :
    ∃ n, wholePart (Scalar.abs code) = .ok n := by
  have hfloor : Decimal.floor? (Scalar.abs code) = some (⌊|Float.value code|⌋₊ : ℤ) := Float.floor?_abs h
  rw [wholePart, hfloor]
  exact ⟨_, rfl⟩

theorem wholePart_eq_error_iff {code : Float} {f : Fault} :
    wholePart (Scalar.abs code) = .error f ↔ WholeFaults code f :=
  Value.eq_error_iff_of_cut (fun code => wholePart (Scalar.abs code)) (fun _ => exists_wholePart) (by decide)
    ⟨by decide, by decide⟩

/-- A code is refused by an error of the configuration, unless it is not finite. -/
theorem configures_proposition (e : VocabularyEntry) (isConclusion : Bool) (code : Float) :
    ConfiguresUnless (proposition e isConclusion code) (WholeFaults code) := by
  unfold proposition
  dsimp only
  cases hposition : wholePart (Scalar.abs code) with
  | error g =>
    exact (ConfiguresUnless.faulted g).congr fun f => by
      rw [← wholePart_eq_error_iff, hposition, Except.error.injEq, eq_comm]
  | ok position =>
    have hwhole (f : Fault) : ¬WholeFaults code f := by
      rw [← wholePart_eq_error_iff, hposition]
      exact fun h => by cases h
    -- the fraction can be taken where the whole part can
    obtain ⟨fraction, hfraction, -⟩ := Float.remainder_abs_one (Value.isFinite_of_not_wholeFaults hwhole)
    simp only [hfraction, liftM_ok, ok_bind]
    refine ConfiguresUnless.congr (P := fun _ => False) ?_ fun f => iff_of_false id (hwhole f)
    split
    · exact .refused _
    · cases hedges? fraction with
      | none => exact .refused _
      | some hedges =>
        simp only [pure_eq_ok, ok_bind]
        split
        · split
          · exact .refused _
          · exact .ok _
        · split
          · exact .ok _
          · exact .refused _

/-- One of the codes that do not leave their variable out is not finite, and those before it say something. -/
def PropositionsFault (isConclusion : Bool) (entries : List VocabularyEntry) (codes : List Float) : Fault → Prop :=
  FirstFaults (fun x => proposition x.1 isConclusion x.2) (fun x => WholeFaults x.2) (chosen entries codes)

theorem configures_propositions (isConclusion : Bool) (entries : List VocabularyEntry) (codes : List Float) :
    ConfiguresUnless (propositions isConclusion entries codes) (PropositionsFault isConclusion entries codes) := by
  unfold propositions PropositionsFault chosen
  exact ConfiguresUnless.mapM (g := fun x : VocabularyEntry × Float => proposition x.1 isConclusion x.2)
    (R := fun x => WholeFaults x.2) (fun x => configures_proposition x.1 isConclusion x.2) _

/-- The number of the connective is not finite, or it is that of one and a code is not finite. -/
def CodesFault (v : Vocabulary) (codes : List Float) (last : Float) (f : Fault) : Prop :=
  WholeFaults last f ∨ (∃ n k, Value.truncated last = .ok n ∧ connectiveOf n = .ok k) ∧
    (PropositionsFault false v.inputs (codes.take v.inputs.length) f ∨
      (∃ ps, propositions false v.inputs (codes.take v.inputs.length) = .ok ps) ∧
        PropositionsFault true v.outputs (codes.drop v.inputs.length) f)

/-- A row of the wrong length faults where it cannot be shown. One of the right length faults in its scalars or in
what they code. -/
def RowFaults (v : Vocabulary) (row : List Value) (f : Fault) : Prop :=
  if row.length = v.inputs.length + v.outputs.length + 2 then
    FirstFaults Value.toScalar Value.ScalarFaults row f ∨
      ∃ codes weight last, row.mapM Value.toScalar = .ok (codes ++ [weight, last]) ∧ CodesFault v codes last f
  else (Value.list row).TextFaults f

theorem configures_connectiveOf (n : Int) : ConfiguresUnless (connectiveOf n) fun _ => False := by
  unfold connectiveOf
  split
  · exact .ok _
  · split
    · exact .ok _
    · exact .refused _

/-- What scalars code faults in the connective, in the inputs or in the outputs. -/
theorem configures_codes {v : Vocabulary} {row : List Value} {codes : List Float} {weight last : Float}
    (hrow : row.mapM Value.toScalar = .ok (codes ++ [weight, last]))
    (hcount : codes.length = v.inputs.length + v.outputs.length) :
    ConfiguresUnless (ofCodes v row) (CodesFault v codes last) := by
  rw [ofCodes_eq hrow hcount]
  refine ((ConfiguresUnless.liftM fun f => Value.truncated_eq_error_iff).bind fun n =>
    (configures_connectiveOf n).bind fun k => (configures_propositions false v.inputs _).bind fun conditions =>
      (configures_propositions true v.outputs _).bind fun conclusions =>
        .ite (.refused _) (.ok _)).congr fun f => or_congr_right ?_
  simp only [false_or, ite_self, and_false, exists_false, or_false]
  constructor
  · rintro ⟨n, hn, k, hk, h⟩
    refine ⟨⟨n, k, liftM_eq_ok_iff.1 hn, hk⟩, h.imp_right ?_⟩
    rintro ⟨ps, hps, hconclusions⟩
    exact ⟨⟨ps, hps⟩, hconclusions⟩
  · rintro ⟨⟨n, k, hn, hk⟩, h⟩
    refine ⟨n, liftM_eq_ok_iff.2 hn, k, hk, h.imp_right ?_⟩
    rintro ⟨⟨ps, hps⟩, hconclusions⟩
    exact ⟨ps, hps, hconclusions⟩

/-- Scalars that are as many as a row needs are codes, a weight and the number of a connective. -/
theorem exists_codes {v : Vocabulary} {scalars : List Float}
    (h : scalars.length = v.inputs.length + v.outputs.length + 2) :
    ∃ codes weight last, scalars = codes ++ [weight, last] ∧ codes.length = v.inputs.length + v.outputs.length := by
  obtain ⟨weight, last, hparts, -⟩ := exists_parts h
  refine ⟨_, weight, last, hparts, ?_⟩
  rw [hparts, List.length_append] at h
  exact Nat.add_right_cancel h

theorem configures_ofCodes (v : Vocabulary) (row : List Value) :
    ConfiguresUnless (ofCodes v row) (RowFaults v row) := by
  unfold RowFaults
  by_cases hlength : row.length = v.inputs.length + v.outputs.length + 2
  · simp only [if_pos hlength]
    have hscalars := ConfiguresUnless.mapM Value.configures_toScalar row
    cases hrow : row.mapM Value.toScalar with
    | error err =>
      have herror : ofCodes v row = .error err := by
        unfold ofCodes
        simp only [hlength, bne_self_eq_false, Bool.false_eq_true, if_false, hrow]
        rfl
      rw [herror]
      exact (hscalars.of_error hrow).congr fun f => by simp
    | ok scalars =>
      have hcount : scalars.length = v.inputs.length + v.outputs.length + 2 := by
        rw [← ((mapM_eq_ok_iff _ _ _).1 hrow).length_eq, hlength]
      obtain ⟨codes, weight, last, rfl, hcodes⟩ := exists_codes hcount
      refine (configures_codes hrow hcodes).congr fun f => ?_
      rw [or_iff_right (hscalars.not_of_ok hrow f)]
      constructor
      · exact fun h => ⟨codes, weight, last, rfl, h⟩
      · rintro ⟨codes', weight', last', heq, h⟩
        obtain ⟨rfl, htail⟩ := List.append_inj' (Except.ok.inj heq) rfl
        cases htail
        exact h
  · simp only [if_neg hlength]
    have hne : (row.length != v.inputs.length + v.outputs.length + 2) = true := by simpa using hlength
    unfold ofCodes
    simp only [hne, if_true]
    exact ConfiguresUnless.throwing (fun f => Value.written_eq_error_iff) _

end CodedRule

/-! ## §2 Operators -/

namespace Catalogue

variable {ι : Type} (c : Catalogue ι)

theorem configures_get (name : String) : ConfiguresUnless (c.get name) fun _ => False := by
  unfold get
  split
  · exact .ok _
  · exact .refused _

theorem configures_optional (name : String) : ConfiguresUnless (c.optional name) fun _ => False := by
  unfold optional
  exact ((ConfiguresUnless.ok _).ite (c.configures_get name).map).congr fun f => by simp

/-- The entry names a member, or nothing. -/
def Knows (t : Value) (key : String) : Prop := ∃ name i, t.entryName key = .ok name ∧ c.optional name = .ok i

/-- What an entry names is used for something else. The entry faults where it cannot be written. -/
theorem configures_named {γ : Type} {t : Value} {key : String} {g : Option ι → Except Error γ} {P : Fault → Prop}
    (hg : ∀ i, ConfiguresUnless (g i) P) :
    ConfiguresUnless (MonadLift.monadLift (t.entryName key) >>= fun name => c.optional name >>= g)
      fun f => t.EntryFaults key f ∨ c.Knows t key ∧ P f := by
  refine ((ConfiguresUnless.liftM fun f => Value.entryName_eq_error_iff).bind fun name =>
    (c.configures_optional name).bind hg).congr fun f => or_congr_right ?_
  constructor
  · rintro ⟨name, hname, hfalse | ⟨i, hi, hP⟩⟩
    · exact hfalse.elim
    · exact ⟨⟨name, i, liftM_eq_ok_iff.1 hname, hi⟩, hP⟩
  · rintro ⟨⟨name, i, hname, hi⟩, hP⟩
    exact ⟨name, liftM_eq_ok_iff.2 hname, .inr ⟨i, hi, hP⟩⟩

end Catalogue

namespace Activation

/-- The number of rules is given as a number that is not finite. -/
def CountFaults (s : String) (f : Fault) : Prop := ∃ x, Value.scalarOfText s = .ok x ∧ Value.WholeFaults x f

/-- The parameters of a method that counts fault in their number. -/
def ParametersFault : Activation Float → String → Fault → Prop
  | first .., s, f | last .., s, f => ∃ count bar, Text.words s = [count, bar] ∧ CountFaults count f
  | highest .., s, f | lowest .., s, f => CountFaults s f
  | general, _, _ | threshold .., _, _ | proportional, _, _ => False

/-- A method that is known faults in its parameters, or where they cannot be written as a text. -/
def BuildFaults (name : String) (parameters : Value) (f : Fault) : Prop :=
  ∃ m, catalogue.optional name = .ok (some m) ∧ parameters.isPresent = true ∧
    match parameters with
    | .text s => m.ParametersFault s f
    | v => (∃ u ∈ v.items, u.TextFaults f) ∨ ∃ s, Value.writtenWords v.items = .ok s ∧ m.ParametersFault s f

theorem configures_countOfText (s : String) : ConfiguresUnless (countOfText s) (CountFaults s) := by
  unfold countOfText
  exact ((Value.configures_scalarOfText s).bind fun x => .liftM fun f => Value.truncated_eq_error_iff).congr
    fun f => by simp [CountFaults]

theorem configures_countAndThreshold (name s : String) : ConfiguresUnless (countAndThreshold name s)
    fun f => ∃ count bar, Text.words s = [count, bar] ∧ CountFaults count f := by
  unfold countAndThreshold
  split
  · rename_i count bar hwords
    refine ((configures_countOfText count).bind fun n =>
      (Value.configures_scalarOfText bar).bind_ok).congr fun f => ?_
    simp only [and_false, exists_false, or_false]
    constructor
    · exact fun h => ⟨count, bar, hwords, h⟩
    · rintro ⟨count', bar', hwords', h⟩
      cases hwords.symm.trans hwords'
      exact h
  · rename_i hother
    refine (ConfiguresUnless.refused _).congr fun f => iff_of_false id ?_
    rintro ⟨count, bar, hwords, -⟩
    exact hother count bar hwords

theorem configures_ofText (s : String) : ConfiguresUnless (Comparison.ofText s) fun _ => False := by
  unfold Comparison.ofText
  split
  · exact .ok _
  · exact .refused _

theorem configures_configure (m : Activation Float) (s : String) :
    ConfiguresUnless (m.configure s) (m.ParametersFault s) := by
  cases m with
  | general | proportional => exact .ok _
  | first | last => exact (configures_countAndThreshold _ s).bind_ok
  | highest | lowest => exact (configures_countOfText s).bind_ok
  | threshold comparison value =>
    unfold configure
    dsimp only
    split
    · rename_i comparison bar hwords
      exact ((configures_ofText comparison).bind fun _ => (Value.configures_scalarOfText bar).bind_ok).congr
        fun f => by simp [ParametersFault]
    · exact .refused _

theorem configures_build (name : String) (parameters : Value) :
    ConfiguresUnless (build name parameters) (BuildFaults name parameters) := by
  unfold build
  cases hname : catalogue.optional name with
  | error err =>
    exact ((catalogue.configures_optional name).of_error hname).congr fun f => by simp [BuildFaults, hname]
  | ok m =>
    cases m with
    | none => exact (ConfiguresUnless.ok _).congr fun f => by simp [BuildFaults, hname]
    | some m =>
      rw [ok_bind]
      dsimp only
      cases hpresent : parameters.isPresent with
      | false => exact (ConfiguresUnless.ok _).congr fun f => by simp [BuildFaults, hpresent]
      | true =>
        have hwords (v : Value) : ConfiguresUnless (MonadLift.monadLift (Value.writtenWords v.items) >>= fun s =>
            m.configure s >>= fun m => .ok (some m)) fun f => (∃ u ∈ v.items, u.TextFaults f) ∨
              ∃ s, Value.writtenWords v.items = .ok s ∧ m.ParametersFault s f :=
          ((ConfiguresUnless.liftM fun f => Value.writtenWords_eq_error_iff).bind fun s =>
            (m.configures_configure s).bind_ok).congr fun f => by simp [liftM_eq_ok_iff]
        cases parameters with
        | text s =>
          exact (m.configures_configure s).bind_ok.congr fun f => by simp [BuildFaults, hname, hpresent]
        | none | bool | int | float | moment | list | table =>
          exact (hwords _).congr fun f => by simp [BuildFaults, hname, hpresent]

end Activation

namespace Defuzzifier

/-- A resolution that is given for an integral method is no whole number, or the type that is given for a weighted one
cannot be written. -/
def BuildFaults (name : String) (resolution type : Value) (f : Fault) : Prop :=
  (∃ m k, catalogue.optional name = .ok (some (.integral m k)) ∧ resolution ≠ .none ∧ resolution.IntFaults f) ∨
    (∃ m k, catalogue.optional name = .ok (some (.weighted m k)) ∧ type.TextFaults f)

theorem configures_ofName (name : String) : ConfiguresUnless (WeightedType.ofName name) fun _ => False := by
  unfold WeightedType.ofName
  split
  · exact .ok _
  · exact .refused _

theorem configures_ofValue (v : Value) : ConfiguresUnless (WeightedType.ofValue v) v.TextFaults := by
  cases v with
  | text s => exact (configures_ofName s).congr fun f => by simp
  | none | bool | int | float | moment | list | table =>
    exact ConfiguresUnless.throwing (fun f => Value.written_eq_error_iff) _

theorem configures_build (name : String) (resolution type : Value) :
    ConfiguresUnless (build name resolution type) (BuildFaults name resolution type) := by
  unfold build
  cases hname : catalogue.optional name with
  | error err =>
    exact ((catalogue.configures_optional name).of_error hname).congr fun f => by simp [BuildFaults, hname]
  | ok d =>
    rcases d with _ | ⟨m, k⟩ | ⟨m, k⟩
    · exact (ConfiguresUnless.ok _).congr fun f => by simp [BuildFaults, hname]
    · rw [ok_bind]
      dsimp only
      split
      · exact (ConfiguresUnless.ok _).congr fun f => by simp [BuildFaults, hname]
      · rename_i hgiven
        have hgiven : resolution ≠ .none := hgiven
        exact (ConfiguresUnless.liftM fun f => Value.toInt_eq_error_iff).bind_ok.congr fun f => by
          simp [BuildFaults, hname, hgiven]
    · rw [ok_bind]
      dsimp only
      cases hpresent : type.isPresent with
      | true => exact (configures_ofValue type).bind_ok.congr fun f => by simp [BuildFaults, hname]
      | false =>
        refine (ConfiguresUnless.ok _).congr fun f => ?_
        have hnone : ¬type.TextFaults f := fun h => by
          rw [Value.isPresent_of_textFaults h] at hpresent
          cases hpresent
        simp [BuildFaults, hname, hnone]

end Defuzzifier

/-! ## §3 Terms -/

/-- So many values configure a shape of that kind: its own, and perhaps a height. -/
def ShapeKind.Takes (k : ShapeKind) (n : Nat) : Prop :=
  if k = .discrete then 2 ≤ n else n = k.arity ∨ n = k.arity + 1

theorem Shape.isSome_ofValues?_iff {k : ShapeKind} (hk : k ≠ .discrete) (values : List Float) :
    (Shape.ofValues? k values).isSome = true ↔ values.length = k.arity := by
  match values with
  | [] | [_] | [_, _] | [_, _, _] | [_, _, _, _] => cases k <;> simp_all [Shape.ofValues?, ShapeKind.arity]
  | _ :: _ :: _ :: _ :: _ :: _ => cases k <;> simp_all [Shape.ofValues?, ShapeKind.arity]

namespace Term

/-- So many values configure the term. -/
def Takes (t : Term Float) (n : Nat) : Prop :=
  match t.body with
  | .shape s _ => s.kind.Takes n
  | .constant _ => n = 1
  | .linear _ | .formula _ => True

/-- The parameters of a formula fault where they cannot be written as a text. Those of another term fault in their
scalars, or where their number is wrong and the term cannot be named. -/
def ConfigureFaults (t : Term Float) (parameters : Value) (f : Fault) : Prop :=
  match t.body with
  | .formula _ => ∃ v ∈ parameters.items, v.TextFaults f
  | _ => parameters.ScalarsFault f ∨
    ∃ values, parameters.toScalars = .ok values ∧ ¬t.Takes values.length ∧ t.name.TextFaults f

theorem configures_configureShape (k : ShapeKind) (name : Name) (values : List Float) :
    ConfiguresUnless (configureShape k name values) fun f => ¬k.Takes values.length ∧ name.TextFaults f := by
  have hthrow (c : String → ConfigurationError) :
      ConfiguresUnless (MonadLift.monadLift name.written >>= fun s => .error (.configuration (c s)) :
        Except Error (Body Float)) name.TextFaults := ConfiguresUnless.throwing (fun f => Name.written_eq_error_iff) c
  unfold configureShape
  split
  · -- an odd number of values ends with a height, so that one value leaves no points
    dsimp only
    obtain ⟨coordinates, hcoordinates⟩ : ∃ coordinates, coordinates =
      if values.length % 2 = 1 then values.dropLast else values := ⟨_, rfl⟩
    rw [← hcoordinates]
    have hempty : coordinates.isEmpty = true ↔ ¬2 ≤ values.length := by
      rw [List.isEmpty_iff_length_eq_zero, hcoordinates]
      split
      · rw [List.length_dropLast]
        omega
      · omega
    by_cases h : coordinates.isEmpty = true
    · rw [if_pos h]
      exact (hthrow _).congr fun f => by simp [ShapeKind.Takes, hempty.1 h]
    · rw [if_neg h]
      exact (ConfiguresUnless.ok _).congr fun f => by
        simp [ShapeKind.Takes, not_not.1 (mt hempty.2 h)]
  · rename_i hk
    have htakes : k.Takes values.length ↔ values.length = k.arity ∨ values.length = k.arity + 1 := by
      rw [ShapeKind.Takes, if_neg hk]
    have hown := Shape.isSome_ofValues?_iff hk values
    have hheight := Shape.isSome_ofValues?_iff hk values.dropLast
    rw [List.length_dropLast] at hheight
    cases hshape : Shape.ofValues? k values with
    | some s =>
      rw [hshape, Option.isSome_some] at hown
      exact (ConfiguresUnless.ok _).congr fun f => iff_of_false not_false fun h => h.1 (htakes.2 (.inl (hown.1 rfl)))
    | none =>
      have hother : values.length ≠ k.arity := fun h => by simpa [hshape] using hown.2 h
      dsimp only
      cases hshape' : Shape.ofValues? k values.dropLast with
      | some s =>
        rw [hshape', Option.isSome_some] at hheight
        have hlength := hheight.1 rfl
        exact (ConfiguresUnless.ok _).congr fun f =>
          iff_of_false not_false fun h => h.1 (htakes.2 (.inr (by omega)))
      | none =>
        have hneither : ¬k.Takes values.length := by
          rw [htakes, not_or]
          exact ⟨hother, fun h => by simpa [hshape'] using hheight.2 (by omega)⟩
        exact (hthrow _).congr fun f => (and_iff_right hneither).symm

theorem configures_parse (formula : String) : ConfiguresUnless (Formula.parse formula) fun _ => False := by
  unfold Formula.parse Formula.tokenize
  dsimp only
  cases Formula.Token.scanAll (Text.trimRight formula).toList with
  | error rest => exact .refused _
  | ok tokens =>
    cases tokens with
    | nil => exact .refused _
    | cons token tokens =>
      dsimp only
      cases Formula.ofTokens (token :: tokens) with
      | ok e => exact .ok _
      | error fault => exact .refused _

theorem formulaText_eq_error_iff {parameters : Value} {f : Fault} :
    formulaText parameters = .error f ↔ ∃ v ∈ parameters.items, v.TextFaults f := by
  cases parameters with
  | text s => simp [formulaText, Value.items]
  | none | bool | int | float | moment | list | table => exact Value.writtenWords_eq_error_iff

/-- Apart from formulas, terms read all values first. -/
theorem configures_of_toScalars {t : Term Float} {parameters : Value} {x : Except Error Unit}
    (herror : ∀ e, parameters.toScalars = .error e → x = .error e)
    (hok : ∀ values, parameters.toScalars = .ok values →
      ConfiguresUnless x fun f => ¬t.Takes values.length ∧ t.name.TextFaults f) :
    ConfiguresUnless x fun f => parameters.ScalarsFault f ∨
      ∃ values, parameters.toScalars = .ok values ∧ ¬t.Takes values.length ∧ t.name.TextFaults f := by
  have hscalars := Value.configures_toScalars parameters
  cases h : parameters.toScalars with
  | error e =>
    rw [herror e h]
    exact (hscalars.of_error h).congr fun f => by simp
  | ok values => exact (hok values h).congr fun f => by simp [hscalars.not_of_ok h f]

theorem configures_configure (t : Term Float) (parameters : Value) :
    ConfiguresUnless (t.configure parameters).2 (t.ConfigureFaults parameters) := by
  unfold configure ConfigureFaults
  cases hkind : t.body with
  | formula g =>
    dsimp only
    cases htext : formulaText parameters with
    | error fault =>
      exact (ConfiguresUnless.faulted fault).congr fun f => by
        rw [← formulaText_eq_error_iff, htext, Except.error.injEq, eq_comm]
    | ok formula =>
      have hnone : ∀ f, ¬∃ v ∈ parameters.items, v.TextFaults f := fun f => by
        rw [← formulaText_eq_error_iff, htext]
        exact fun h => by cases h
      have hparse := configures_parse formula
      refine ConfiguresUnless.congr (P := fun _ => False) ?_ fun f => iff_of_false not_false (hnone f)
      unfold loadFormula
      dsimp only
      cases h : Formula.parse formula with
      | ok root => exact .ok _
      | error err => exact hparse.of_error h
  | shape s height =>
    refine configures_of_toScalars (fun e h => by rw [h]; rfl) fun values h => ?_
    have hshape := configures_configureShape s.kind t.name values
    have htakes (f : Fault) : ¬s.kind.Takes values.length ∧ t.name.TextFaults f ↔
        ¬t.Takes values.length ∧ t.name.TextFaults f := by simp [Takes, hkind]
    simp only [h, ok_bind]
    cases hbody : configureShape s.kind t.name values with
    | ok body => exact (ConfiguresUnless.ok ()).congr fun f =>
        iff_of_false not_false ((htakes f).not.1 (hshape.not_of_ok hbody f))
    | error e => exact (hshape.of_error hbody).congr htakes
  | constant x =>
    refine configures_of_toScalars (fun e h => by rw [h]; rfl) fun values h => ?_
    simp only [h, ok_bind]
    rcases values with _ | ⟨value, _ | ⟨_, _⟩⟩
    · exact (ConfiguresUnless.naming (fun s h => ⟨_, by rw [h]; rfl⟩) fun g h => by rw [h]; rfl).congr
        fun f => by simp [Takes, hkind]
    · exact (ConfiguresUnless.ok ()).congr fun f => by simp [Takes, hkind]
    · exact (ConfiguresUnless.naming (fun s h => ⟨_, by rw [h]; rfl⟩) fun g h => by rw [h]; rfl).congr
        fun f => by simp [Takes, hkind]
  | linear xs =>
    refine configures_of_toScalars (fun e h => by rw [h]; rfl) fun values h => ?_
    simp only [h, ok_bind]
    exact (ConfiguresUnless.ok ()).congr fun f => by simp [Takes, hkind]

end Term

namespace TermRegistry

/-- A term of no kind faults where its name cannot be written, one of a kind in that of the kind or in its
parameters. -/
def BuildFaults (r : TermRegistry) (kind : Value) (name : Name) (parameters : Value) (f : Fault) : Prop :=
  (kind.isPresent = false ∧ name.TextFaults f) ∨ kind.TextFaults f ∨
    ∃ k, kind.isPresent = true ∧ r.ofValue kind = .ok k ∧ hasParameters parameters = true ∧
      (Term.blank k name : Term Float).ConfigureFaults parameters f

theorem configures_ofValue (r : TermRegistry) (kind : Value) : ConfiguresUnless (r.ofValue kind) kind.TextFaults := by
  have hrefuse : ConfiguresUnless (MonadLift.monadLift kind.written >>= fun s => r.refuse s) kind.TextFaults :=
    ConfiguresUnless.throwing (fun f => Value.written_eq_error_iff) _
  cases kind with
  | text s => exact (r.configures_get s).congr fun f => by simp
  | none | bool | int | float | moment | list | table => exact hrefuse

theorem configures_build (r : TermRegistry) (kind : Value) (name : Name) (parameters : Value) :
    ConfiguresUnless (r.build kind name parameters) (r.BuildFaults kind name parameters) := by
  unfold build
  cases hpresent : kind.isPresent with
  | false =>
    have hkind (f : Fault) : ¬kind.TextFaults f := fun h => by
      rw [Value.isPresent_of_textFaults h] at hpresent
      cases hpresent
    exact (ConfiguresUnless.throwing (fun f => Name.written_eq_error_iff) _).congr fun f => by
      simp [BuildFaults, hpresent, hkind]
  | true =>
    have hconfigure (k : TermKind) : ConfiguresUnless ((((Term.blank k name).configure parameters).2).map fun _ =>
        ((Term.blank k name).configure parameters).1) ((Term.blank k name).ConfigureFaults parameters) :=
      ((Term.blank k name).configures_configure parameters).map
    refine ((r.configures_ofValue kind).bind fun k => (hconfigure k).ite (.ok _)).congr fun f => ?_
    simp [BuildFaults, hpresent]

end TermRegistry

/-! ## §4 Variables -/

namespace Variable

/-- A term whose name is taken faults where one of the names cannot be written. -/
def AddFaults (v : Variable Float) (t : Term Float) (f : Fault) : Prop :=
  v.hasTerm t.name = true ∧ (t.name.TextFaults f ∨ v.name.TextFaults f)

/-- What a table says of a term faults where a variable that cannot be named misses an entry, and where the term is
built or added. -/
def TermFaults (r : TermRegistry) (v : Variable Float) (t : Value) (f : Fault) : Prop :=
  ((t.entry? "type" = none ∨ t.entry? "name" = none) ∧ v.name.TextFaults f) ∨
    ∃ kind name, t.entry? "type" = some kind ∧ t.entry? "name" = some name ∧
      (r.BuildFaults kind (.ofValue name) (t.entryOrNone "parameters") f ∨
        ∃ u, r.build kind (.ofValue name) (t.entryOrNone "parameters") = .ok u ∧ v.AddFaults u f)

/-- What tables say of terms faults at one of them, when those before have been added. -/
def TermsFault (r : TermRegistry) (v : Variable Float) (ts : List Value) (f : Fault) : Prop :=
  ∃ before t after w, ts = before ++ t :: after ∧ addTables r v before = .ok w ∧ TermFaults r w t f

theorem configures_termEntry (owner : Name) (key : String) (t : Value) :
    ConfiguresUnless (t.termEntry owner key) fun f => t.entry? key = none ∧ owner.TextFaults f := by
  unfold Value.termEntry
  cases hentry : t.entry? key with
  | some v => exact (ConfiguresUnless.ok _).congr fun f => by simp
  | none =>
    exact (ConfiguresUnless.throwing (fun f => Name.written_eq_error_iff) _).congr fun f => by simp

theorem configures_addTerm (v : Variable Float) (t : Term Float) :
    ConfiguresUnless (v.addTerm t) (v.AddFaults t) := by
  unfold addTerm placeTerm
  have hthrow : ConfiguresUnless (MonadLift.monadLift t.name.written >>= fun s =>
      MonadLift.monadLift v.name.written >>= fun owner => .error (.configuration (.duplicateTerm s owner)) :
        Except Error (Variable Float)) fun f => t.name.TextFaults f ∨ v.name.TextFaults f := by
    refine ((ConfiguresUnless.liftM fun f => Name.written_eq_error_iff).bind fun s =>
      ConfiguresUnless.throwing (fun f => Name.written_eq_error_iff) _).congr fun f => ?_
    constructor
    · exact Or.imp_right fun ⟨_, _, h⟩ => h
    · -- where both names are too long, the first one faults
      rintro (h | h)
      · exact .inl h
      · cases hwritten : t.name.written with
        | ok s => exact .inr ⟨s, rfl, h⟩
        | error g =>
          have hfault := Name.written_eq_error_iff.1 hwritten
          exact .inl ⟨hfault.1, h.2⟩
  exact (hthrow.ite (.ok _)).congr fun f => by simp [AddFaults]

theorem termEntry_eq_ok_iff {owner : Name} {key : String} {t v : Value} :
    t.termEntry owner key = .ok v ↔ t.entry? key = some v := by
  unfold Value.termEntry
  cases t.entry? key with
  | some w => simp
  | none =>
    refine iff_of_false (fun h => ?_) nofun
    obtain ⟨s, -, h⟩ := bind_eq_ok_iff.1 h
    cases h

theorem termOfTable_eq_ok_iff {r : TermRegistry} {owner : Name} {t : Value} {u : Term Float} :
    termOfTable r owner t = .ok u ↔ ∃ kind name, t.entry? "type" = some kind ∧ t.entry? "name" = some name ∧
      r.build kind (.ofValue name) (t.entryOrNone "parameters") = .ok u := by
  unfold termOfTable
  simp only [bind_eq_ok_iff, termEntry_eq_ok_iff]
  constructor
  · rintro ⟨kind, hkind, name, hname, hbuild⟩
    exact ⟨kind, name, hkind, hname, hbuild⟩
  · rintro ⟨kind, name, hkind, hname, hbuild⟩
    exact ⟨kind, hkind, name, hname, hbuild⟩

theorem configures_addTable (r : TermRegistry) (v : Variable Float) (t : Value) :
    ConfiguresUnless (termOfTable r v.name t >>= v.addTerm) (TermFaults r v t) := by
  have hterm : ConfiguresUnless (termOfTable r v.name t) _ :=
    (configures_termEntry v.name "type" t).bind fun kind =>
      (configures_termEntry v.name "name" t).bind fun name =>
        r.configures_build kind (.ofValue name) (t.entryOrNone "parameters")
  refine (hterm.bind fun u => v.configures_addTerm u).congr fun f => ?_
  simp only [TermFaults, termEntry_eq_ok_iff, termOfTable_eq_ok_iff]
  cases htype : t.entry? "type" with
  | none => simp
  | some kind =>
    cases hname : t.entry? "name" with
    | none => simp
    | some name => simp

theorem addTables_cons (r : TermRegistry) (v : Variable Float) (t : Value) (ts : List Value) :
    addTables r v (t :: ts) = (termOfTable r v.name t >>= v.addTerm) >>= fun w => addTables r w ts := by
  rw [addTables, bind_assoc]

theorem configures_addTables (r : TermRegistry) (v : Variable Float) (ts : List Value) :
    ConfiguresUnless (addTables r v ts) (TermsFault r v ts) := by
  -- by induction on the tables, for any variable: it holds what the tables before have added
  induction ts generalizing v with
  | nil =>
    refine (ConfiguresUnless.ok v).congr fun f => iff_of_false not_false ?_
    rintro ⟨before, t, after, w, hsplit, -⟩
    cases (List.append_eq_nil_iff.1 hsplit.symm).2
  | cons t ts ih =>
    rw [addTables_cons]
    refine ((configures_addTable r v t).bind ih).congr fun f => ?_
    constructor
    · rintro (h | ⟨w, hw, before, u, after, x, rfl, hx, hu⟩)
      · exact ⟨[], t, ts, v, rfl, rfl, h⟩
      · exact ⟨t :: before, u, after, x, rfl, by rw [addTables_cons, hw, ok_bind, hx], hu⟩
    · rintro ⟨before, u, after, x, hsplit, hx, hu⟩
      cases before with
      | nil =>
        cases hsplit
        cases hx
        exact .inl hu
      | cons t' before =>
        cases hsplit
        obtain ⟨w, hw, hx⟩ := bind_eq_ok_iff.1 (addTables_cons r v t before ▸ hx)
        exact .inr ⟨w, hw, before, u, after, x, rfl, hx, hu⟩

/-- What a table says of variables of both kinds faults in the terms. -/
def FillFaults (r : TermRegistry) (v : Variable Float) (t : Value) : Fault → Prop :=
  TermsFault r { v with enabled := t.entryFlag "enabled" true, lockValueInRange := t.entryFlag "lock_range" false }
    (t.entryItems "terms")

theorem configures_fill (r : TermRegistry) (v : Variable Float) (t : Value) :
    ConfiguresUnless (v.fill r t) (v.FillFaults r t) := configures_addTables r _ _

end Variable

namespace Value

/-- The name is missing. -/
def OwnerFaults (t : Value) (f : Fault) : Prop := t.entry? "name" = Option.none ∧ f = .missingEntry

/-- One of two limits is no scalar, or there are not two of them and the variable cannot be named. -/
def PairFaults (t v : Value) (f : Fault) : Prop :=
  (∃ low high, v.items = [low, high] ∧ (low.ScalarFaults f ∨ (∃ x, low.toScalar = .ok x) ∧ high.ScalarFaults f)) ∨
    v.items.length ≠ 2 ∧ t.label.TextFaults f

/-- The range is a table of two entries, or faults in its limits. -/
def LimitsFault (t : Value) (f : Fault) : Prop :=
  ∃ v, t.entry? "range" = some v ∧
    ((∃ a b, v = .table [a, b]) ∧ f = .missingEntry ∨ (∀ a b, v ≠ .table [a, b]) ∧ t.PairFaults v f)

/-- The value of an entry is no scalar. -/
def ScalarEntryFaults (t : Value) (key : String) (f : Fault) : Prop :=
  ∃ v, t.entry? key = some v ∧ v.ScalarFaults f

theorem configures_ownerName (t : Value) : ConfiguresUnless t.ownerName t.OwnerFaults := by
  unfold ownerName OwnerFaults
  cases t.entry? "name" with
  | some v => exact (ConfiguresUnless.ok _).congr fun f => by simp
  | none => exact (ConfiguresUnless.faulted .missingEntry).congr fun f => by simp

theorem configures_entryScalar (t : Value) (key : String) (default : Float) :
    ConfiguresUnless (t.entryScalar key default) (t.ScalarEntryFaults key) := by
  unfold entryScalar ScalarEntryFaults
  cases t.entry? key with
  | some v => exact (configures_toScalar v).congr fun f => by simp
  | none => exact (ConfiguresUnless.ok _).congr fun f => by simp

theorem configures_limits (t : Value) : ConfiguresUnless t.limits t.LimitsFault := by
  unfold limits LimitsFault
  split
  · rename_i hrange
    exact (ConfiguresUnless.ok _).congr fun f => by simp [hrange]
  · rename_i a b hrange
    refine (ConfiguresUnless.faulted .missingEntry).congr fun f => ?_
    constructor
    · exact fun h => ⟨_, hrange, .inl ⟨⟨a, b, rfl⟩, h⟩⟩
    · rintro ⟨v, hv, ⟨-, h⟩ | ⟨hne, -⟩⟩
      · exact h
      · cases hrange.symm.trans hv
        exact absurd rfl (hne a b)
  · rename_i v htable hrange
    -- the entry is the only one of that name, so that the limits are what is left to fault
    have hlimits (f : Fault) : (∃ w, t.entry? "range" = some w ∧ ((∃ a b, w = .table [a, b]) ∧ f = .missingEntry ∨
        (∀ a b, w ≠ .table [a, b]) ∧ t.PairFaults w f)) ↔ t.PairFaults v f := by
      constructor
      · rintro ⟨w, hw, ⟨⟨a, b, rfl⟩, -⟩ | ⟨-, h⟩⟩
        · exact (htable a b (Option.some.inj (hrange.symm.trans hw))).elim
        · cases hrange.symm.trans hw
          exact h
      · exact fun h => ⟨v, hrange, .inr ⟨htable, h⟩⟩
    split
    · rename_i low high hitems
      refine ((configures_toScalar low).bind fun x => (configures_toScalar high).bind_ok).congr fun f => ?_
      rw [hlimits]
      simp [PairFaults, hitems]
    · rename_i hitems
      have hcount : v.items.length ≠ 2 := fun h => by
        obtain ⟨low, high, h⟩ := List.length_eq_two.1 h
        exact hitems low high h
      refine (ConfiguresUnless.throwing (fun f => Name.written_eq_error_iff) _).congr fun f => ?_
      rw [hlimits, PairFaults, and_iff_right hcount, or_iff_right]
      rintro ⟨low, high, h, -⟩
      exact hitems low high h

end Value

/-- What a table says of an input faults in its name, its range, its terms or its value, whichever comes first. -/
def Variable.InputFaults (r : TermRegistry) (t : Value) (f : Fault) : Prop :=
  t.OwnerFaults f ∨ ∃ name, t.ownerName = .ok name ∧ (t.LimitsFault f ∨ ∃ limits, t.limits = .ok limits ∧
    ((Variable.empty name limits.1 limits.2).FillFaults r t f ∨
      (∃ v, (Variable.empty name limits.1 limits.2).fill r t = .ok v) ∧ t.ScalarEntryFaults "value" f))

theorem Variable.configures_ofTable (r : TermRegistry) (t : Value) :
    ConfiguresUnless (Variable.ofTable r t) (Variable.InputFaults r t) := by
  have hfilled {g : Variable Float → Except Error (Variable Float)} {P : Fault → Prop}
      (hg : ∀ v, ConfiguresUnless (g v) P) :=
    t.configures_ownerName.bind fun name => t.configures_limits.bind fun limits =>
      ((Variable.empty name limits.1 limits.2).configures_fill r t).bind hg
  unfold ofTable InputFaults Value.ScalarEntryFaults
  cases t.entry? "value" with
  | some x => exact (hfilled fun v => (Value.configures_toScalar x).bind_ok).congr fun f => by simp
  | none => exact (hfilled fun v => .ok v).congr fun f => by simp

namespace OutputVariable

/-- What a table says of an output beyond its terms faults in the default, the aggregation or the defuzzifier. -/
def SettingsFault (t : Value) (f : Fault) : Prop :=
  t.ScalarEntryFaults "default" f ∨ (∃ x, t.entryScalar "default" nan = .ok x) ∧
    (t.EntryFaults "aggregation" f ∨ SNorm.catalogue.Knows t "aggregation" ∧
      (t.EntryFaults "defuzzifier" f ∨ ∃ name, t.entryName "defuzzifier" = .ok name ∧
        Defuzzifier.BuildFaults name (t.entryOrNone "resolution") (t.entryOrNone "type") f))

/-- What a table says of an output faults in its name, its range, its terms or its settings, whichever comes
first. -/
def OutputFaults (r : TermRegistry) (t : Value) (f : Fault) : Prop :=
  t.OwnerFaults f ∨ ∃ name, t.ownerName = .ok name ∧ (t.LimitsFault f ∨ ∃ limits, t.limits = .ok limits ∧
    ((OutputVariable.empty name limits.1 limits.2).toVariable.FillFaults r t f ∨
      (∃ v, (OutputVariable.empty name limits.1 limits.2).toVariable.fill r t = .ok v) ∧ SettingsFault t f))

theorem configures_ofTable (r : TermRegistry) (t : Value) :
    ConfiguresUnless (OutputVariable.ofTable r t) (OutputFaults r t) := by
  have hdefuzzifier {ι : Type} (g : Option Defuzzifier → ι) :
      ConfiguresUnless (MonadLift.monadLift (t.entryName "defuzzifier") >>= fun name =>
        Defuzzifier.build name (t.entryOrNone "resolution") (t.entryOrNone "type") >>= fun d => .ok (g d))
        fun f => t.EntryFaults "defuzzifier" f ∨ ∃ name, t.entryName "defuzzifier" = .ok name ∧
          Defuzzifier.BuildFaults name (t.entryOrNone "resolution") (t.entryOrNone "type") f :=
    ((ConfiguresUnless.liftM fun f => Value.entryName_eq_error_iff).bind fun name =>
      (Defuzzifier.configures_build name _ _).bind_ok).congr fun f => by simp [liftM_eq_ok_iff]
  exact (t.configures_ownerName.bind fun name => t.configures_limits.bind fun limits =>
    ((OutputVariable.empty name limits.1 limits.2).toVariable.configures_fill r t).bind fun base =>
      (t.configures_entryScalar "default" nan).bind fun x =>
        SNorm.catalogue.configures_named fun aggregation => hdefuzzifier _).congr fun f => by
          simp [OutputFaults, SettingsFault]

end OutputVariable

/-! ## §5 Rule blocks -/

namespace RuleBlock

/-- What a table says of a block faults in the name of an operator, in the parameters of the activation method or in
a rule in codes, whichever comes first. -/
def BlockFaults (inventory : Vocabulary) (t : Value) (f : Fault) : Prop :=
  t.EntryFaults "conjunction" f ∨ TNorm.catalogue.Knows t "conjunction" ∧
    (t.EntryFaults "disjunction" f ∨ SNorm.catalogue.Knows t "disjunction" ∧
      (t.EntryFaults "implication" f ∨ TNorm.catalogue.Knows t "implication" ∧
        (t.EntryFaults "activation" f ∨ ∃ name, t.entryName "activation" = .ok name ∧
          (Activation.BuildFaults name (t.entryOrNone "activation_parameters") f ∨
            (∃ a, Activation.build name (t.entryOrNone "activation_parameters") = .ok a) ∧
              FirstFaults (fun row => CodedRule.ofCodes inventory row.items)
                (fun row => CodedRule.RowFaults inventory row.items) (t.entryItems "codes") f))))

theorem configures_ofTable (inventory : Vocabulary) (t : Value) :
    ConfiguresUnless (RuleBlock.ofTable inventory t) (BlockFaults inventory t) := by
  have hcodes : ConfiguresUnless ((t.entryItems "codes").mapM fun row =>
      CodedRule.text <$> CodedRule.ofCodes inventory row.items)
      (FirstFaults (fun row => CodedRule.ofCodes inventory row.items)
        (fun row => CodedRule.RowFaults inventory row.items) (t.entryItems "codes")) := by
    refine (ConfiguresUnless.mapM (fun row : Value => (CodedRule.configures_ofCodes inventory row.items).map) _).congr
      fun f => ?_
    have hvalue (row : Value) : (∃ s, CodedRule.text <$> CodedRule.ofCodes inventory row.items = .ok s) ↔
        ∃ rule, CodedRule.ofCodes inventory row.items = .ok rule := by simp [map_eq_ok_iff]
    simp only [FirstFaults, hvalue]
  have hactivation {ι : Type} (g : Option (Activation Float) → List String → ι) :
      ConfiguresUnless (MonadLift.monadLift (t.entryName "activation") >>= fun name =>
        Activation.build name (t.entryOrNone "activation_parameters") >>= fun a =>
          ((t.entryItems "codes").mapM fun row => CodedRule.text <$> CodedRule.ofCodes inventory row.items) >>=
            fun texts => .ok (g a texts)) _ :=
    (ConfiguresUnless.liftM fun f => Value.entryName_eq_error_iff).bind fun name =>
      (Activation.configures_build name _).bind fun a => hcodes.bind_ok
  exact (TNorm.catalogue.configures_named fun conjunction => SNorm.catalogue.configures_named fun disjunction =>
    TNorm.catalogue.configures_named fun implication => hactivation _).congr fun f => by
      simp [BlockFaults, liftM_eq_ok_iff]

end RuleBlock

end FuzzyInference
