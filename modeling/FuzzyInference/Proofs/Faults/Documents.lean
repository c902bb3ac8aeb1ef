import FuzzyInference.Proofs.Equipping
import FuzzyInference.Proofs.Faults.Causes

/-!
# Faults of documents

An engine is built from a document section by section, then configured, and its rules are loaded. What is wrong with
the document should be told by an error of the configuration. It is, unless the document faults: then the fault
escapes as it is. When that happens is said here exactly, in the order in which the document is read, and each fault
is traced to what causes it.

The plan of this module:

* the operators of the settings;
* engines, from the sections to the rules;
* causes.

## Main statements

* `Engine.configures_ofDocument`: when a document faults
* `Engine.cause_of_documentFaults`: what causes it
* `Engine.escapes_ofDocument`: what escapes from building an engine
-/

namespace FuzzyInference

open Checked

/-! ## §1 Operators of the settings -/

namespace OperatorNames

/-- The entries that name operators. -/
def keys : List String := ["conjunction", "disjunction", "implication", "aggregation", "defuzzifier", "activation"]

/-- One of the operators has a name that cannot be written. -/
def NamesFault (t : Value) (f : Fault) : Prop := ∃ key ∈ keys, t.EntryFaults key f

theorem nameText_activation_eq_error_iff {t : Value} {f : Fault} :
    ((t.entry? "activation").getD (.text defaultActivation)).nameText = .error f ↔ t.EntryFaults "activation" f := by
  rw [Value.nameText_eq_error_iff, Value.EntryFaults]
  cases t.entry? "activation" <;> simp

theorem ofTable_eq_error_iff {t : Value} {f : Fault} : ofTable t = .error f ↔ NamesFault t f := by
  have hforward : ∀ g, ofTable t = .error g → NamesFault t g := by
    intro g h
    simp only [ofTable, bind_eq_error_iff, Value.entryName_eq_error_iff, nameText_activation_eq_error_iff] at h
    unfold NamesFault keys
    simp only [List.mem_cons, List.not_mem_nil, or_false, exists_eq_or_imp, exists_eq_left]
    tauto
  refine ⟨hforward f, ?_⟩
  rintro ⟨key, hkey, hfault⟩
  cases hnames : ofTable t with
  | error g =>
    -- there is only one fault of texts
    obtain ⟨_, -, _, -, hg⟩ := hforward g hnames
    obtain ⟨_, -, hf⟩ := hfault
    rw [hg.2, hf.2]
  | ok names =>
    simp only [ofTable, bind_eq_ok_iff] at hnames
    obtain ⟨_, h₁, _, h₂, _, h₃, _, h₄, _, h₅, _, h₆, -⟩ := hnames
    have hsound {x : Except Fault String} {key : String} {s : String} (h : x = .ok s)
        (hx : x = .error f ↔ t.EntryFaults key f) : ¬t.EntryFaults key f := by
      rw [← hx, h]
      exact fun h => by cases h
    simp only [keys, List.mem_cons, List.not_mem_nil, or_false] at hkey
    rcases hkey with rfl | rfl | rfl | rfl | rfl | rfl
    · exact (hsound h₁ Value.entryName_eq_error_iff hfault).elim
    · exact (hsound h₂ Value.entryName_eq_error_iff hfault).elim
    · exact (hsound h₃ Value.entryName_eq_error_iff hfault).elim
    · exact (hsound h₄ Value.entryName_eq_error_iff hfault).elim
    · exact (hsound h₅ Value.entryName_eq_error_iff hfault).elim
    · exact (hsound h₆ nameText_activation_eq_error_iff hfault).elim

theorem configures_resolve (names : OperatorNames) : ConfiguresUnless names.resolve fun _ => False :=
  ((TNorm.catalogue.configures_optional _).bind fun _ => (SNorm.catalogue.configures_optional _).bind fun _ =>
    (TNorm.catalogue.configures_optional _).bind fun _ => (SNorm.catalogue.configures_optional _).bind fun _ =>
      (Defuzzifier.catalogue.configures_optional _).bind fun _ =>
        (Activation.catalogue.configures_optional _).bind_ok).congr fun f => by simp

end OperatorNames

/-! ## §2 Engines -/

namespace Engine

/-- Adding what tables describe faults like the first description that does. -/
def AssemblyFaults (r : TermRegistry) (doc : Value) (f : Fault) : Prop :=
  FirstFaults (Variable.ofTable r) (Variable.InputFaults r) (doc.entryItems "input") f ∨
    ∃ e, addInputs r (Engine.empty (settings doc).label) (doc.entryItems "input") = .ok e ∧
      (FirstFaults (OutputVariable.ofTable r) (OutputVariable.OutputFaults r) (doc.entryItems "output") f ∨
        ∃ e', addOutputs r e (doc.entryItems "output") = .ok e' ∧
          FirstFaults (RuleBlock.ofTable e'.inventory) (RuleBlock.BlockFaults e'.inventory)
            (doc.entryItems "rule_block") f)

theorem configures_assemble (r : TermRegistry) (doc : Value) :
    ConfiguresUnless (assemble r doc) (AssemblyFaults r doc) :=
  (ConfiguresUnless.foldlM addInput (fun _ => ()) (fun _ _ => rfl)
    (fun _ => Variable.configures_ofTable r) _ _).bind fun _ =>
      (ConfiguresUnless.foldlM addOutput (fun _ => ()) (fun _ _ => rfl)
        (fun _ => OutputVariable.configures_ofTable r) _ _).bind fun _ =>
          ConfiguresUnless.foldlM addBlock inventory (fun _ _ => rfl) RuleBlock.configures_ofTable _ _

/-- Some output is to get a defuzzifier that faults. -/
def EquipmentFaults (names : OperatorNames) (resolution : Value) (vs : List (OutputVariable Float)) (f : Fault) :
    Prop :=
  (∃ v ∈ vs, v.defuzzifier = none) ∧ Defuzzifier.BuildFaults names.defuzzifier resolution .none f

theorem configures_equipAll (ops : Operators) (names : OperatorNames) (resolution : Value)
    (vs : List (OutputVariable Float)) :
    ConfiguresUnless (OutputVariable.equipAll ops names.defuzzifier resolution vs).value
      (EquipmentFaults names resolution vs) := by
  have hbuild := Defuzzifier.configures_build names.defuzzifier resolution .none
  rcases OutputVariable.equipAll_cases ops names.defuzzifier resolution vs with
    ⟨hdone, hall⟩ | ⟨err, before, v, after, hrefused, rfl, -, hv, herror, -⟩
  · rw [Outcome.value_of_error_eq_none hdone]
    refine (ConfiguresUnless.ok _).congr fun f => iff_of_false not_false ?_
    rintro ⟨⟨v, hv, hnone⟩, hfault⟩
    obtain ⟨w, -, hw⟩ := exists_mem_right_of_forall₂ hall hv
    exact hbuild.not_of_ok ((OutputVariable.of_equip hw).2.2 hnone) f hfault
  · rw [Outcome.error_eq_some_iff.1 herror]
    refine (hbuild.of_error hrefused).congr fun f => ?_
    rw [EquipmentFaults, and_iff_right ⟨v, by simp, hv⟩]

/-- A name of an operator cannot be written; or all names are known, and some output is to get a defuzzifier that
faults. -/
def ConfigureFaults (e : Engine Float) (settings : Value) (f : Fault) : Prop :=
  OperatorNames.NamesFault settings f ∨ ∃ names ops, OperatorNames.ofTable settings = .ok names ∧
    names.resolve = .ok ops ∧ EquipmentFaults names (settings.entryOrNone "resolution") e.outputs f

theorem configures_configureBy (e : Engine Float) (settings : Value) :
    ConfiguresUnless (e.configureBy settings).value (e.ConfigureFaults settings) := by
  unfold configureBy ConfigureFaults
  cases hnames : OperatorNames.ofTable settings with
  | error g =>
    refine (ConfiguresUnless.faulted g).congr fun f => ?_
    rw [← OperatorNames.ofTable_eq_error_iff, hnames]
    simp [eq_comm]
  | ok names =>
    have hwritten (f : Fault) : ¬OperatorNames.NamesFault settings f := by
      rw [← OperatorNames.ofTable_eq_error_iff, hnames]
      exact fun h => by cases h
    unfold configure
    dsimp only
    cases hresolve : names.resolve with
    | error err =>
      exact (names.configures_resolve.of_error hresolve).congr fun f => by simp [hwritten, hresolve]
    | ok ops =>
      dsimp only
      rw [Outcome.value_andThen, Outcome.value_map]
      exact ((configures_equipAll ops names _ e.outputs).map.bind fun _ => .ok _).congr fun f => by
        simp [hwritten, hresolve]

theorem configures_settleTypes (name : Value) (e : Engine Float) :
    ConfiguresUnless (settleTypes name e).value name.TextFaults := by
  unfold settleTypes
  cases hpresent : name.isPresent with
  | false =>
    refine (ConfiguresUnless.ok e).congr fun f => iff_of_false not_false fun h => ?_
    rw [Value.isPresent_of_textFaults h] at hpresent
    cases hpresent
  | true =>
    have htype := Defuzzifier.configures_ofValue name
    cases h : WeightedType.ofValue name with
    | error err => exact htype.of_error h
    | ok type => exact (ConfiguresUnless.ok _).congr fun f => iff_of_false not_false (htype.not_of_ok h f)

/-- A strict build lists failures under a name that cannot be written. -/
def CheckFaults (strict : Bool) (e : Engine Float) (f : Fault) : Prop :=
  strict = true ∧ e.failures ≠ [] ∧ e.name.TextFaults f

theorem configures_loadChecked (strict : Bool) (e : Engine Float) :
    ConfiguresUnless (loadChecked strict e).value (e.CheckFaults strict) := by
  cases strict with
  | false => exact (ConfiguresUnless.ok _).congr fun f => by simp [CheckFaults]
  | true =>
    rw [value_loadChecked_strict]
    unfold checkFailures CheckFaults
    cases hfailures : e.failures with
    | nil => exact (ConfiguresUnless.ok _).congr fun f => by simp
    | cons failure failures =>
      exact ((ConfiguresUnless.throwing (fun f => Name.written_eq_error_iff) _).bind_ok).congr fun f => by simp

/-- What a document says faults where the engine is assembled, where it is configured, in the type of weighted
defuzzifiers, or where the failures of a strict build are listed. -/
def DocumentFaults (r : TermRegistry) (strict : Bool) (doc : Value) (f : Fault) : Prop :=
  AssemblyFaults r doc f ∨ ∃ e, assemble r doc = .ok e ∧ (e.ConfigureFaults (settings doc) f ∨
    ∃ e', (e.configureBy (settings doc)).value = .ok e' ∧ (((settings doc).entryOrNone "type").TextFaults f ∨
      ∃ e'', (settleTypes ((settings doc).entryOrNone "type") e').value = .ok e'' ∧ e''.CheckFaults strict f))

theorem configures_ofDocument (r : TermRegistry) (strict : Bool) (doc : Value) :
    ConfiguresUnless (ofDocument r strict doc).value (DocumentFaults r strict doc) := by
  rw [value_ofDocument, prepare, bind_assoc]
  refine (configures_assemble r doc).bind fun e => ?_
  rw [bind_assoc]
  exact (e.configures_configureBy (settings doc)).bind fun e' =>
    (configures_settleTypes _ e').bind (configures_loadChecked strict)

/-! ## §3 Causes -/

/-- What causes a document to fault. -/
inductive Cause (doc : Value) (f : Fault) : Prop
  /-- A whole number, wherever it stands, is too large or too long. -/
  | number : doc.NumberFaults f → Cause doc f
  /-- A variable has no name. -/
  | unnamed {t : Value} : t ∈ doc.entryItems "input" ++ doc.entryItems "output" → t.OwnerFaults f → Cause doc f
  /-- The range of a variable is a table. -/
  | range {t : Value} : t ∈ doc.entryItems "input" ++ doc.entryItems "output" → t.RangeFaults f → Cause doc f
  /-- The resolution of an output, or that of the settings, is no whole number. -/
  | resolution {t : Value} : t ∈ settings doc :: doc.entryItems "output" → t.ResolutionFaults f → Cause doc f
  /-- A code is not finite. -/
  | code {t : Value} : t ∈ doc.entryItems "rule_block" → RuleBlock.CodeFaults t f → Cause doc f
  /-- The number of rules to fire is not finite. -/
  | count {t : Value} : t ∈ doc.entryItems "rule_block" → RuleBlock.CountFaults t f → Cause doc f

section Causes

variable {r : TermRegistry} {strict : Bool} {doc : Value} {f : Fault}

theorem cause_of_settings (h : (settings doc).NumberFaults f) : Cause doc f := by
  unfold settings at h
  cases hentry : doc.entry? "engine" with
  | some s =>
    rw [hentry] at h
    exact .number (.mono (Value.holds_of_entry hentry) h)
  | none =>
    rw [hentry] at h
    obtain ⟨n, hn, -⟩ := h
    cases hn with
    | entry hmem => cases hmem

theorem cause_of_assemblyFaults (h : AssemblyFaults r doc f) : Cause doc f := by
  rcases h with h | ⟨-, -, h | ⟨e, -, h⟩⟩
  · obtain ⟨t, ht, hfault⟩ := h.exists_mem
    have hvariable : t ∈ doc.entryItems "input" ++ doc.entryItems "output" := List.mem_append_left _ ht
    rcases Variable.causes_of_inputFaults hfault with h | h | h
    · exact .unnamed hvariable h
    · exact .range hvariable h
    · exact .number (.of_mem_entryItems ht h)
  · obtain ⟨t, ht, hfault⟩ := h.exists_mem
    have hvariable : t ∈ doc.entryItems "input" ++ doc.entryItems "output" := List.mem_append_right _ ht
    rcases OutputVariable.causes_of_outputFaults hfault with h | h | h | h
    · exact .unnamed hvariable h
    · exact .range hvariable h
    · exact .resolution (List.mem_cons_of_mem _ ht) h
    · exact .number (.of_mem_entryItems ht h)
  · obtain ⟨t, ht, hfault⟩ := h.exists_mem
    rcases RuleBlock.causes_of_blockFaults hfault with h | h | h
    · exact .code ht h
    · exact .count ht h
    · exact .number (.of_mem_entryItems ht h)

theorem cause_of_configureFaults {e : Engine Float} (h : e.ConfigureFaults (settings doc) f) : Cause doc f := by
  rcases h with ⟨key, -, h⟩ | ⟨names, ops, -, -, -, h⟩
  · exact cause_of_settings (Value.numberFaults_of_entryFaults h)
  · rcases Value.causes_of_buildFaults h with h | ⟨n, hn, -⟩
    · exact .resolution List.mem_cons_self h
    · cases hn

/-- Whatever is read first, a fault has a cause. -/
theorem cause_of_documentFaults (h : DocumentFaults r strict doc f) : Cause doc f := by
  rcases h with h | ⟨e, he, h | ⟨e', he', h | ⟨e'', he'', -, -, hname⟩⟩⟩
  · exact cause_of_assemblyFaults h
  · exact cause_of_configureFaults h
  · exact cause_of_settings (.of_entryOrNone (Value.numberFaults_of_textFaults h))
  · rw [name_settleTypes he'', name_configureBy he', name_assemble he] at hname
    exact cause_of_settings (Value.numberFaults_of_label hname)

end Causes

/-- Building an engine from a document is refused by an error of the configuration, unless the document faults: the
faults, and nothing else, escape. Each of them has a cause in the document. -/
theorem escapes_ofDocument (r : TermRegistry) (strict : Bool) (doc : Value) :
    (∀ err, ((ofDocument r strict doc).error = some err ∧ ¬err.IsConfiguration) ↔
      ∃ f, err = .fault f ∧ DocumentFaults r strict doc f) ∧
    ∀ f, DocumentFaults r strict doc f → Cause doc f :=
  ⟨fun err => by rw [Outcome.error_eq_some_iff]; exact (configures_ofDocument r strict doc).escapes_iff err,
    fun _ => cause_of_documentFaults⟩

/-- Documents that fault: an input without a name; a code, a resolution and a number of rules that are not finite. -/
def faultyDocuments : List (Value × Fault) :=
  let named (name : String) : Value := .table [("name", .text name)]
  let coded (code : Float) : Value := .table [("input", .list [named "a"]), ("output", .list [named "y"]),
    ("rule_block", .list [.table [("codes", .list [.list [.float code, .int 1, .int 1, .int 1]])]])]
  let resolved (x : Float) : Value := .table [
    ("engine", .table [("defuzzifier", .text "Centroid"), ("resolution", .float x)]), ("output", .list [named "y"])]
  let counted (s : String) : Value := .table [("rule_block", .list [.table
    [("activation", .text "Highest"), ("activation_parameters", .text s)]])]
  [(.table [("input", .list [.table []])], .missingEntry), (coded Scalar.nan, .notWhole), (coded Scalar.inf, .overflow),
    (resolved Scalar.nan, .notWhole), (resolved Scalar.inf, .overflow), (counted "nan", .notWhole),
    (counted "inf", .overflow)]

/-- Each of these documents lets its fault escape, and holds a cause of it. -/
theorem escapes_ofDocument_faulty : ∀ p ∈ faultyDocuments,
    (ofDocument .standard true p.1).error = some (.fault p.2) ∧ Cause p.1 p.2 := by
  have hescapes : ∀ p ∈ faultyDocuments, (ofDocument .standard true p.1).error = some (.fault p.2) := by
    decide +kernel
  intro p hp
  obtain ⟨hiff, hcause⟩ := escapes_ofDocument .standard true p.1
  obtain ⟨f, hf, hfaults⟩ := (hiff (.fault p.2)).1 ⟨hescapes p hp, not_false⟩
  cases hf
  exact ⟨hescapes p hp, hcause _ hfaults⟩

end Engine

end FuzzyInference
