import FuzzyInference.Proofs.Faults.Sections

/-!
# Causes of faults

Which fault of a section comes first depends on the order in which the section is read. What causes a fault does
not: it is a whole number that is too large or too long, wherever it stands; a name that is missing; a range that is
a table; a number of a rule in codes, or of the rules to fire, that is not finite; or a resolution that is no whole
number.

The plan of this module:

* the values that a value holds, and whole numbers among them;
* what faults in a term, a variable and a block.

## Main statements

* `Value.numberFaults_of_textFaults`, `Value.numberFaults_of_scalarFaults`: texts and scalars
* `Variable.causes_of_inputFaults`, `OutputVariable.causes_of_outputFaults`, `RuleBlock.causes_of_blockFaults`:
  sections
-/

namespace FuzzyInference

open Scalar Checked

/-! ## §1 Whole numbers -/

namespace Value

/-- The values that a value holds, at any depth, and itself. -/
inductive Holds : Value → Value → Prop
  | self (v : Value) : Holds v v
  | item {items : List Value} {v u : Value} : v ∈ items → Holds v u → Holds (list items) u
  | entry {entries : List (String × Value)} {key : String} {v u : Value} :
      (key, v) ∈ entries → Holds v u → Holds (table entries) u

theorem Holds.trans {v u w : Value} (h : v.Holds u) (h' : u.Holds w) : v.Holds w := by
  induction h with
  | self => exact h'
  | item hmem _ ih => exact .item hmem (ih h')
  | entry hmem _ ih => exact .entry hmem (ih h')

theorem holds_of_entry {t v : Value} {key : String} (h : t.entry? key = some v) : t.Holds v := by
  cases t with
  | table entries =>
    obtain ⟨before, after, rfl, -⟩ := List.lookup_eq_some_iff.1 h
    exact .entry (List.mem_append_right before List.mem_cons_self) (.self v)
  | none | bool | int | float | text | moment | list => cases h

/-- The items of a value are in it, apart from texts that it is cut into. -/
theorem holds_of_mem_items {t v : Value} (h : v ∈ t.items) : t.Holds v ∨ ∃ s, v = text s := by
  cases t with
  | list items => exact .inl (.item h (.self v))
  | text s =>
    obtain ⟨c, -, rfl⟩ := List.mem_map.1 h
    exact .inr ⟨_, rfl⟩
  | table entries =>
    obtain ⟨entry, -, rfl⟩ := List.mem_map.1 h
    exact .inr ⟨_, rfl⟩
  | none | bool | int | float | moment => cases h

mutual

theorem exists_of_not_isWritable (v : Value) (h : v.isWritable = false) :
    ∃ n, v.Holds (int n) ∧ Decimal.isWritable n = false := by
  cases v with
  | int n =>
    rw [isWritable] at h
    exact ⟨n, .self _, h⟩
  | list items =>
    obtain ⟨u, hu, n, hn, hlong⟩ := exists_of_not_areWritable items h
    exact ⟨n, .item hu hn, hlong⟩
  | table entries =>
    obtain ⟨p, hp, n, hn, hlong⟩ := exists_of_not_areEntriesWritable entries h
    exact ⟨n, .entry hp hn, hlong⟩
  | none | bool | float | text | moment => cases h

theorem exists_of_not_areWritable : ∀ vs : List Value, areWritable vs = false →
    ∃ v ∈ vs, ∃ n, v.Holds (int n) ∧ Decimal.isWritable n = false
  | v :: vs, h =>
    match (Bool.and_eq_false_iff.1 h) with
    | .inl h => ⟨v, List.mem_cons_self, exists_of_not_isWritable v h⟩
    | .inr h =>
      have ⟨u, hu, hn⟩ := exists_of_not_areWritable vs h
      ⟨u, List.mem_cons_of_mem v hu, hn⟩

theorem exists_of_not_areEntriesWritable : ∀ entries : List (String × Value), areEntriesWritable entries = false →
    ∃ p ∈ entries, ∃ n, p.2.Holds (int n) ∧ Decimal.isWritable n = false
  | (key, v) :: entries, h =>
    match (Bool.and_eq_false_iff.1 h) with
    | .inl h => ⟨(key, v), List.mem_cons_self, exists_of_not_isWritable v h⟩
    | .inr h =>
      have ⟨p, hp, hn⟩ := exists_of_not_areEntriesWritable entries h
      ⟨p, List.mem_cons_of_mem _ hp, hn⟩

end

/-- A whole number in the value is too long to be written, or too large for a scalar. -/
def NumberFaults (v : Value) (f : Fault) : Prop :=
  ∃ n, v.Holds (int n) ∧
    (Decimal.isWritable n = false ∧ f = .digits ∨ Scalar.isInf (Decimal.floatOfInt n) = true ∧ f = .overflow)

variable {t v : Value} {key : String} {f : Fault}

theorem NumberFaults.mono (h : t.Holds v) (hv : v.NumberFaults f) : t.NumberFaults f := by
  obtain ⟨n, hn, hfault⟩ := hv
  exact ⟨n, h.trans hn, hfault⟩

theorem not_numberFaults_text (s : String) (f : Fault) : ¬(text s).NumberFaults f := by
  rintro ⟨n, hn, -⟩
  cases hn

theorem NumberFaults.of_mem_items (h : v ∈ t.items) (hv : v.NumberFaults f) : t.NumberFaults f := by
  rcases holds_of_mem_items h with h | ⟨s, rfl⟩
  · exact .mono h hv
  · exact (not_numberFaults_text s f hv).elim

theorem exists_of_numberFaults_list {vs : List Value} (h : (list vs).NumberFaults f) : ∃ v ∈ vs, v.NumberFaults f := by
  obtain ⟨n, hn, hfault⟩ := h
  cases hn with
  | item hv hn => exact ⟨_, hv, n, hn, hfault⟩

theorem numberFaults_of_textFaults (h : v.TextFaults f) : v.NumberFaults f := by
  obtain ⟨n, hn, hlong⟩ := exists_of_not_isWritable v h.1
  exact ⟨n, hn, .inl ⟨hlong, h.2⟩⟩

theorem numberFaults_of_scalarFaults (h : v.ScalarFaults f) : v.NumberFaults f := by
  cases v with
  | int n => exact ⟨n, .self _, .inr h⟩
  | none | bool | float | text | moment | list | table => exact numberFaults_of_textFaults h

theorem numberFaults_of_scalarsFault (h : v.ScalarsFault f) : v.NumberFaults f := by
  have hitems (h : FirstFaults toScalar ScalarFaults v.items f) : v.NumberFaults f := by
    obtain ⟨u, hu, hfault⟩ := h.exists_mem
    exact .of_mem_items hu (numberFaults_of_scalarFaults hfault)
  cases v with
  | text s => exact h.elim
  | none | bool | int | float | moment | list | table => exact hitems h

theorem numberFaults_of_entryFaults (h : t.EntryFaults key f) : t.NumberFaults f := by
  obtain ⟨v, hv, hfault⟩ := h
  exact .mono (holds_of_entry hv) (numberFaults_of_textFaults hfault)

theorem numberFaults_of_scalarEntryFaults (h : t.ScalarEntryFaults key f) : t.NumberFaults f := by
  obtain ⟨v, hv, hfault⟩ := h
  exact .mono (holds_of_entry hv) (numberFaults_of_scalarFaults hfault)

/-- What an entry holds, its table holds. -/
theorem NumberFaults.of_entryOrNone (h : (t.entryOrNone key).NumberFaults f) : t.NumberFaults f := by
  unfold entryOrNone at h
  cases hentry : t.entry? key with
  | none =>
    rw [hentry] at h
    obtain ⟨n, hn, -⟩ := h
    cases hn
  | some v =>
    rw [hentry] at h
    exact NumberFaults.mono (holds_of_entry hentry) h

theorem NumberFaults.of_mem_entryItems (h : v ∈ t.entryItems key) (hv : v.NumberFaults f) : t.NumberFaults f := by
  unfold entryItems at h
  cases hentry : t.entry? key with
  | none =>
    rw [hentry] at h
    cases h
  | some u =>
    rw [hentry] at h
    exact NumberFaults.mono (holds_of_entry hentry) (.of_mem_items h hv)

end Value

/-! ## §2 Terms -/

theorem Name.numberFaults_of_textFaults {v : Value} {f : Fault} (h : (Name.ofValue v).TextFaults f) :
    v.NumberFaults f := by
  have hvalue : (Name.ofValue v).toValue = v := by cases v <;> rfl
  rw [Name.TextFaults, hvalue] at h
  exact Value.numberFaults_of_textFaults h

namespace Term

theorem numberFaults_of_configureFaults {t : Term Float} {parameters : Value} {f : Fault}
    (h : t.ConfigureFaults parameters f) : parameters.NumberFaults f ∨ t.name.TextFaults f := by
  unfold ConfigureFaults at h
  split at h
  · obtain ⟨v, hv, hfault⟩ := h
    exact .inl (.of_mem_items hv (Value.numberFaults_of_textFaults hfault))
  · rcases h with h | ⟨values, -, -, hname⟩
    · exact .inl (Value.numberFaults_of_scalarsFault h)
    · exact .inr hname

theorem name_configure (t : Term Float) (parameters : Value) : (t.configure parameters).1.name = t.name := by
  unfold configure loadFormula
  dsimp only
  split
  · split
    · split <;> rfl
    · rfl
  · split <;> rfl

end Term

namespace TermRegistry

variable {r : TermRegistry} {kind parameters : Value} {name : Name} {t : Term Float} {f : Fault}

theorem numberFaults_of_buildFaults (h : r.BuildFaults kind name parameters f) :
    kind.NumberFaults f ∨ parameters.NumberFaults f ∨ name.TextFaults f := by
  rcases h with ⟨-, hname⟩ | hkind | ⟨k, -, -, -, hconfigure⟩
  · exact .inr (.inr hname)
  · exact .inl (Value.numberFaults_of_textFaults hkind)
  · exact .inr (Term.numberFaults_of_configureFaults hconfigure)

theorem name_build (h : r.build kind name parameters = .ok t) : t.name = name := by
  unfold build at h
  split at h
  · obtain ⟨s, -, h⟩ := bind_eq_ok_iff.1 h
    cases h
  · obtain ⟨k, -, h⟩ := bind_eq_ok_iff.1 h
    split at h
    · obtain ⟨u, -, rfl⟩ := map_eq_ok_iff.1 h
      exact Term.name_configure _ parameters
    · cases h
      rfl

end TermRegistry

/-! ## §3 Variables -/

namespace Variable

variable {r : TermRegistry} {v w : Variable Float} {t : Value} {ts : List Value} {f : Fault}

theorem name_addTables (h : v.addTables r ts = .ok w) : w.name = v.name := by
  induction ts generalizing v with
  | nil =>
    cases h
    rfl
  | cons t ts ih =>
    obtain ⟨term, -, h⟩ := bind_eq_ok_iff.1 h
    obtain ⟨u, hu, h⟩ := bind_eq_ok_iff.1 h
    rw [ih h, placeTerm_eq_ok hu]

theorem numberFaults_of_termFaults (h : TermFaults r v t f) : t.NumberFaults f ∨ v.name.TextFaults f := by
  rcases h with ⟨-, hname⟩ | ⟨kind, name, hkind, hname, hbuild | ⟨u, hu, -, hadd⟩⟩
  · exact .inr hname
  · refine .inl ?_
    rcases TermRegistry.numberFaults_of_buildFaults hbuild with h | h | h
    · exact .mono (Value.holds_of_entry hkind) h
    · exact .of_entryOrNone h
    · exact .mono (Value.holds_of_entry hname) (Name.numberFaults_of_textFaults h)
  · -- a term bears the name in its table, whatever its parameters are
    rw [TermRegistry.name_build hu] at hadd
    exact hadd.imp_left fun h => .mono (Value.holds_of_entry hname) (Name.numberFaults_of_textFaults h)

theorem numberFaults_of_fillFaults (h : v.FillFaults r t f) : t.NumberFaults f ∨ v.name.TextFaults f := by
  obtain ⟨before, u, after, w, hsplit, hw, hfault⟩ := h
  have hu : u ∈ t.entryItems "terms" := hsplit ▸ List.mem_append_right before List.mem_cons_self
  refine (numberFaults_of_termFaults hfault).imp (fun h => .of_mem_entryItems hu h) fun h => ?_
  rwa [name_addTables hw] at h

end Variable

namespace Value

/-- The range is a table of two entries. -/
def RangeFaults (t : Value) (f : Fault) : Prop :=
  (∃ a b, t.entry? "range" = some (.table [a, b])) ∧ f = .missingEntry

/-- The resolution is given and is no whole number. -/
def ResolutionFaults (t : Value) (f : Fault) : Prop :=
  ∃ v, t.entry? "resolution" = some v ∧ v ≠ .none ∧ v.IntFaults f

variable {t : Value} {f : Fault}

theorem numberFaults_of_label (h : t.label.TextFaults f) : t.NumberFaults f := by
  have hlabel := Name.numberFaults_of_textFaults h
  cases hname : t.entry? "name" with
  | none =>
    rw [hname] at hlabel
    exact (not_numberFaults_text "" f hlabel).elim
  | some v =>
    rw [hname] at hlabel
    exact .mono (holds_of_entry hname) hlabel

theorem causes_of_limitsFault (h : t.LimitsFault f) : t.RangeFaults f ∨ t.NumberFaults f := by
  obtain ⟨v, hv, ⟨⟨a, b, rfl⟩, rfl⟩ | ⟨-, ⟨low, high, hitems, hlimits⟩ | ⟨-, hlabel⟩⟩⟩ := h
  · exact .inl ⟨⟨a, b, hv⟩, rfl⟩
  · refine .inr (.mono (holds_of_entry hv) ?_)
    rcases hlimits with h | ⟨-, h⟩
    · exact .of_mem_items (by simp [hitems]) (numberFaults_of_scalarFaults h)
    · exact .of_mem_items (by simp [hitems]) (numberFaults_of_scalarFaults h)
  · exact .inr (numberFaults_of_label hlabel)

/-- A resolution that is given for an integral method is the cause, or else the type of a weighted one. -/
theorem causes_of_buildFaults {name : String} {type : Value}
    (h : Defuzzifier.BuildFaults name (t.entryOrNone "resolution") type f) :
    t.ResolutionFaults f ∨ type.NumberFaults f := by
  rcases h with ⟨m, k, -, hgiven, hint⟩ | ⟨m, k, -, htype⟩
  · refine .inl ?_
    unfold entryOrNone at hgiven hint
    cases hentry : t.entry? "resolution" with
    | none =>
      rw [hentry] at hgiven
      exact absurd rfl hgiven
    | some v =>
      rw [hentry] at hgiven hint
      exact ⟨v, hentry, hgiven, hint⟩
  · exact .inr (numberFaults_of_textFaults htype)

end Value

section Sections

variable {r : TermRegistry} {t : Value} {f : Fault}

theorem Value.numberFaults_of_ownerName {name : Name} (hname : t.ownerName = .ok name) (h : name.TextFaults f) :
    t.NumberFaults f := by
  unfold ownerName at hname
  split at hname
  · rename_i v hv
    cases hname
    exact .mono (holds_of_entry hv) (Name.numberFaults_of_textFaults h)
  · cases hname

theorem Variable.causes_of_inputFaults (h : InputFaults r t f) :
    t.OwnerFaults f ∨ t.RangeFaults f ∨ t.NumberFaults f := by
  rcases h with h | ⟨name, hname, h | ⟨limits, -, h | ⟨-, h⟩⟩⟩
  · exact .inl h
  · exact .inr (Value.causes_of_limitsFault h)
  · refine .inr (.inr ?_)
    rcases numberFaults_of_fillFaults h with h | h
    · exact h
    · exact Value.numberFaults_of_ownerName hname h
  · exact .inr (.inr (Value.numberFaults_of_scalarEntryFaults h))

theorem OutputVariable.causes_of_outputFaults (h : OutputFaults r t f) :
    t.OwnerFaults f ∨ t.RangeFaults f ∨ t.ResolutionFaults f ∨ t.NumberFaults f := by
  rcases h with h | ⟨name, hname, h | ⟨limits, -, h | ⟨-, h | ⟨-, h | ⟨-, h | ⟨d, -, h⟩⟩⟩⟩⟩⟩
  · exact .inl h
  · exact .inr ((Value.causes_of_limitsFault h).imp_right .inr)
  · refine .inr (.inr (.inr ?_))
    rcases Variable.numberFaults_of_fillFaults h with h | h
    · exact h
    · exact Value.numberFaults_of_ownerName hname h
  · exact .inr (.inr (.inr (Value.numberFaults_of_scalarEntryFaults h)))
  · exact .inr (.inr (.inr (Value.numberFaults_of_entryFaults h)))
  · exact .inr (.inr (.inr (Value.numberFaults_of_entryFaults h)))
  · exact .inr (.inr ((Value.causes_of_buildFaults h).imp_right .of_entryOrNone))

end Sections

/-! ## §4 Rule blocks -/

namespace RuleBlock

/-- A code that is not finite. -/
def CodeFaults (t : Value) (f : Fault) : Prop :=
  ∃ row ∈ t.entryItems "codes", ∃ code ∈ row.items, ∃ x, code.toScalar = .ok x ∧ Value.WholeFaults x f

/-- The number of rules to fire is not finite: the parameters of the activation method, as one text, or the first
word of them. -/
def CountFaults (t : Value) (f : Fault) : Prop :=
  ∃ s word, Term.formulaText (t.entryOrNone "activation_parameters") = .ok s ∧ (word = s ∨ word ∈ Text.words s) ∧
    Activation.CountFaults word f

variable {inventory : Vocabulary} {t : Value} {f : Fault}

theorem causes_of_parametersFault {m : Activation Float} {s : String} (h : m.ParametersFault s f) :
    ∃ word, (word = s ∨ word ∈ Text.words s) ∧ Activation.CountFaults word f := by
  cases m with
  | first | last =>
    obtain ⟨count, bar, hwords, hfault⟩ := h
    exact ⟨count, .inr (by simp [hwords]), hfault⟩
  | highest | lowest => exact ⟨s, .inl rfl, h⟩
  | general | threshold | proportional => exact h.elim

theorem causes_of_activationFaults {name : String}
    (h : Activation.BuildFaults name (t.entryOrNone "activation_parameters") f) :
    CountFaults t f ∨ t.NumberFaults f := by
  obtain ⟨m, -, -, h⟩ := h
  have hcount {s : String} (hs : Term.formulaText (t.entryOrNone "activation_parameters") = .ok s)
      (h : m.ParametersFault s f) : CountFaults t f ∨ t.NumberFaults f := by
    obtain ⟨word, hword, hfault⟩ := causes_of_parametersFault h
    exact .inl ⟨s, word, hs, hword, hfault⟩
  have hitems {items : List Value} (hsame : items = (t.entryOrNone "activation_parameters").items)
      (htext : Term.formulaText (t.entryOrNone "activation_parameters") = Value.writtenWords items)
      (h : (∃ u ∈ items, u.TextFaults f) ∨ ∃ s, Value.writtenWords items = .ok s ∧ m.ParametersFault s f) :
      CountFaults t f ∨ t.NumberFaults f := by
    rcases h with ⟨u, hu, hfault⟩ | ⟨s, hs, hfault⟩
    · exact .inr (.of_entryOrNone (.of_mem_items (hsame ▸ hu) (Value.numberFaults_of_textFaults hfault)))
    · exact hcount (htext.trans hs) hfault
  -- a text is taken as it is, the items of any other value are joined
  cases hparameters : t.entryOrNone "activation_parameters" with
  | text s =>
    rw [hparameters] at h
    exact hcount (by rw [hparameters]; rfl) h
  | none | bool | int | float | moment | list | table =>
    rw [hparameters] at h
    exact hitems (by rw [hparameters]) (by rw [hparameters]; rfl) h

theorem mem_of_propositionsFault {isConclusion : Bool} {entries : List VocabularyEntry} {codes : List Float}
    (h : CodedRule.PropositionsFault isConclusion entries codes f) : ∃ x ∈ codes, Value.WholeFaults x f := by
  obtain ⟨⟨e, x⟩, hmem, hfault⟩ := h.exists_mem
  exact ⟨x, (List.of_mem_zip (List.mem_of_mem_filter hmem)).2, hfault⟩

theorem causes_of_rowFaults {row : List Value} (h : CodedRule.RowFaults inventory row f) :
    (∃ code ∈ row, ∃ x, code.toScalar = .ok x ∧ Value.WholeFaults x f) ∨ (Value.list row).NumberFaults f := by
  unfold CodedRule.RowFaults at h
  split at h
  · rcases h with h | ⟨codes, weight, last, hrow, h⟩
    · obtain ⟨u, hu, hfault⟩ := h.exists_mem
      exact .inr (.of_mem_items hu (Value.numberFaults_of_scalarFaults hfault))
    · -- every code is the scalar of an item of the row
      have hcode {x : Float} (hx : x ∈ codes ++ [weight, last]) (hfault : Value.WholeFaults x f) :
          ∃ code ∈ row, ∃ x, code.toScalar = .ok x ∧ Value.WholeFaults x f := by
        obtain ⟨code, hmem, hscalar⟩ := exists_of_mem_mapM hrow hx
        exact ⟨code, hmem, x, hscalar, hfault⟩
      rcases h with h | ⟨-, h | ⟨-, h⟩⟩
      · exact .inl (hcode (by simp) h)
      · obtain ⟨x, hx, hfault⟩ := mem_of_propositionsFault h
        exact .inl (hcode (List.mem_append_left _ (List.mem_of_mem_take hx)) hfault)
      · obtain ⟨x, hx, hfault⟩ := mem_of_propositionsFault h
        exact .inl (hcode (List.mem_append_left _ (List.mem_of_mem_drop hx)) hfault)
  · exact .inr (Value.numberFaults_of_textFaults h)

theorem causes_of_blockFaults (h : BlockFaults inventory t f) :
    CodeFaults t f ∨ CountFaults t f ∨ t.NumberFaults f := by
  rcases h with h | ⟨-, h | ⟨-, h | ⟨-, h | ⟨name, -, h | ⟨-, h⟩⟩⟩⟩⟩
  · exact .inr (.inr (Value.numberFaults_of_entryFaults h))
  · exact .inr (.inr (Value.numberFaults_of_entryFaults h))
  · exact .inr (.inr (Value.numberFaults_of_entryFaults h))
  · exact .inr (.inr (Value.numberFaults_of_entryFaults h))
  · exact .inr (causes_of_activationFaults h)
  · obtain ⟨row, hmem, hrow⟩ := h.exists_mem
    rcases causes_of_rowFaults hrow with h | h
    · exact .inl ⟨row, hmem, h⟩
    · obtain ⟨v, hv, hfault⟩ := Value.exists_of_numberFaults_list h
      exact .inr (.inr (.of_mem_entryItems hmem (.of_mem_items hv hfault)))

end RuleBlock

end FuzzyInference
