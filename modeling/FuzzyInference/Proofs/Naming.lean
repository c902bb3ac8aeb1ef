import FuzzyInference.Proofs.Assembly
import FuzzyInference.Proofs.Locality

/-!
# What names stand for in rules and in formulas

Rules and formulas speak of the variables of an engine by name, but they find them in two ways. A rule looks a
name up: the first variable of this name counts, inputs before outputs. A formula takes the values of all
variables over, one after the other, so that the last variable of a name counts. An engine does not keep its
variables from sharing a name. Where no two variables share one, both ways lead to the same variable; where two
do, a formula that mentions the name agrees with the rules when the first and the last of them happen to have
the same value.

The plan of this module:

* the variables of a name;
* the first one in looking up and in the vocabulary of rules, the last one in the surroundings of terms;
* formulas.

## Main statements

* `Engine.variableNamed_eq`, `Engine.ref_find?_vocabulary`: rules read the first variable of a name
* `Engine.value?_surroundings`: terms see the value of the last one
* `Engine.membership_formula`: a formula, and when it reads what rules read
-/

namespace FuzzyInference

open Formula

theorem Name.text_beq_comm (s : String) (n : Name) : (Name.text s == n) = (n == Name.text s) := by
  cases n with
  | text t => rw [text_beq_text, text_beq_text, Bool.beq_comm]
  | other v => rfl

/-- A name that counts as a text is this text. -/
theorem Name.beq_text_iff (n : Name) (s : String) :
    (n == Name.text s) = (n.isText && n.asText == s) := by
  cases n with
  | text t => rfl
  | other v => rfl

namespace Engine

/-! ## §1 The variables of a name -/

/-- The variables of a name, inputs before outputs. -/
def named (e : Engine Float) (n : String) : List (AnyVariable Float) :=
  e.members.filter fun v => v.base.name == Name.text n

/-- The first variable of a name. -/
def first? (e : Engine Float) (n : String) : Option (AnyVariable Float) := (e.named n).head?

/-- The last variable of a name. -/
def last? (e : Engine Float) (n : String) : Option (AnyVariable Float) := (e.named n).getLast?

theorem first?_eq_find? (e : Engine Float) (n : String) :
    e.first? n = e.members.find? fun v => v.base.name == Name.text n :=
  List.head?_filter

/-- The only variable of a name is the first and the last one. -/
theorem first?_eq_last? {e : Engine Float} {n : String} (h : (e.named n).length ≤ 1) : e.first? n = e.last? n := by
  rw [first?, last?]
  rcases hnamed : e.named n with _ | ⟨v, _ | ⟨w, rest⟩⟩
  · rfl
  · rfl
  · rw [hnamed] at h
    simp at h

/-! ## §2 Looking up -/

/-- Looking up finds the first variable of a name. -/
theorem variableNamed_eq (e : Engine Float) (n : String) :
    e.variableNamed (Name.text n) =
      match e.first? n with
      | some v => .ok v
      | none => .error (.configuration (.variableNotFound n)) := by
  rw [first?_eq_find?, members, membersOf, List.find?_append, List.find?_map, List.find?_map, variableNamed]
  have hinputs : (fun v : AnyVariable Float => v.base.name == Name.text n) ∘ AnyVariable.input =
      fun v => v.name == Name.text n := rfl
  have houtputs : (fun v : AnyVariable Float => v.base.name == Name.text n) ∘ AnyVariable.output =
      fun v => v.name == Name.text n := rfl
  rw [hinputs, houtputs]
  cases e.inputs.find? fun v => v.name == Name.text n with
  | some v => rfl
  | none =>
    cases e.outputs.find? fun v => v.name == Name.text n with
    | some v => rfl
    | none => rfl

/-- Among the variables that rules can speak of, a name finds the first one that has it. -/
theorem find?_entries {ι : Type} (base : ι → Variable Float) (isOutput : Bool) (vs : List ι) (n : String) :
    (((vs.filter fun v => (base v).name.isText).map fun v =>
        Variables.entry Name.isText (base v) isOutput).find? fun e => e.ref.name == n) =
      (vs.find? fun v => (base v).name == Name.text n).map fun v =>
        Variables.entry Name.isText (base v) isOutput := by
  rw [List.find?_map, List.find?_filter]
  congr 2
  funext v
  rw [Name.beq_text_iff, Bool.decide_and, Bool.decide_eq_true, Bool.decide_eq_true]
  rfl

/-- Rules that use a name read the first variable of this name. -/
theorem ref_find?_vocabulary (e : Engine Float) (n : String) :
    (e.vocabulary.find? n).map VocabularyEntry.ref = (e.first? n).map AnyVariable.ref := by
  rw [first?_eq_find?, members, membersOf, List.find?_append, List.find?_map, List.find?_map]
  have hentries : e.vocabulary.find? n =
      ((e.inputs.find? fun v => v.name == Name.text n).map fun v => Variables.entry Name.isText v false).or
        ((e.outputs.find? fun v => v.name == Name.text n).map fun v =>
          Variables.entry Name.isText v.toVariable true) := by
    rw [Vocabulary.find?, List.find?_append]
    exact congrArg₂ Option.or (find?_entries (fun v => v) false e.inputs n)
      (find?_entries OutputVariable.toVariable true e.outputs n)
  rw [hentries, Option.map_or, Option.map_or]
  simp only [Option.map_map]
  rfl

/-- What a proposition of a rule is about is found by its first word. -/
theorem subject_of_proposition {v : Vocabulary} {name : String} {ws : List String} {c : Condition}
    {rest : ConditionReader.Fewer (name :: ws)} (h : ConditionReader.proposition v name ws = .ok (c, rest)) :
    ∀ p ∈ c.propositions, (v.find? name).map VocabularyEntry.ref = some p.subject := by
  unfold ConditionReader.proposition at h
  split at h
  · cases h
  · rename_i e hfind
    split at h
    · cases h
    · split at h
      · split at h
        · cases h
        · cases h
          intro p hp
          obtain rfl := List.mem_singleton.1 hp
          rw [hfind]
          rfl
      · cases h

/-- A table that is searched from its end gives the value of the last item of a name. -/
theorem lookup_reverse_map {ι : Type} (nameOf : ι → Name) (valueOf : ι → Float) (xs : List ι) (n : String) :
    (xs.map fun x => (nameOf x, valueOf x)).reverse.lookup (Name.text n) =
      (xs.filter fun x => nameOf x == Name.text n).getLast?.map valueOf := by
  induction xs using List.reverseRecOn with
  | nil => rfl
  | append_singleton xs x ih =>
    rw [List.map_append, List.reverse_append, List.map_singleton, List.reverse_singleton, List.singleton_append,
      List.lookup_cons, ih, List.filter_append, List.getLast?_append, Name.text_beq_comm]
    cases h : nameOf x == Name.text n with
    | true => simp [h]
    | false => simp [h]

/-- Terms see the value of the last variable of a name. -/
theorem value?_surroundings (e : Engine Float) (n : String) :
    e.store.surroundings.value? n = (e.last? n).map fun v => v.base.value := by
  have hmembers : e.store.surroundings.inputs ++ e.store.surroundings.outputs =
      e.members.map fun v => (v.base.name, v.base.value) := by
    rw [members, membersOf, List.map_append, List.map_map, List.map_map]
    rfl
  rw [Surroundings.value?, hmembers]
  exact lookup_reverse_map (fun v => v.base.name) (fun v => v.base.value) e.members n

/-! ## §3 Formulas -/

/-- What names stand for in a formula: its argument, the variables that are found for them, and the formula's
own values. -/
def reading (find : String → Option (AnyVariable Float)) (f : FormulaBody Float) (x : Float) : Valuation Float :=
  fun n => if n = "x" then some x else ((find n).map fun v => v.base.value) <|> f.extra.lookup n

/-- A formula takes the last variable of every name. -/
theorem membership_eq (e : Engine Float) {t : Term Float} {f : FormulaBody Float} {root : Expr Float}
    (hbody : t.body = .formula f) (hroot : f.root = some root) (x : Float) :
    t.membership e.surroundings x = root.eval (reading e.last? f x) := by
  simp only [Term.membership, hbody, FormulaBody.eval, hroot]
  refine Expr.eval_congr fun n _ => ?_
  unfold Term.scope reading
  split
  · rfl
  · rw [surroundings, Option.bind_some, value?_surroundings]

/-- The first and the last variable of a name have the same value, if there are any. -/
def Agrees (e : Engine Float) (n : String) : Prop :=
  (e.first? n).map (fun v => v.base.value) = (e.last? n).map fun v => v.base.value

instance (e : Engine Float) (n : String) : Decidable (e.Agrees n) :=
  inferInstanceAs (Decidable ((e.first? n).map (fun v => v.base.value) = (e.last? n).map fun v => v.base.value))

theorem agrees_of_length_le_one {e : Engine Float} {n : String} (h : (e.named n).length ≤ 1) : e.Agrees n := by
  rw [Agrees, first?_eq_last? h]

/-- Looking a name up and reading it in a formula come to the same value when first and last variable agree. -/
theorem reading_eq_iff_agrees {e : Engine Float} {n : String} {v : AnyVariable Float} (hn : n ≠ "x")
    (h : e.first? n = some v) (f : FormulaBody Float) (x : Float) :
    reading e.last? f x n = some v.base.value ↔ e.Agrees n := by
  -- a name that has a first variable has a last one
  obtain ⟨w, hw⟩ : ∃ w, e.last? n = some w := by
    rw [first?] at h
    exact ⟨_, List.getLast?_eq_some_getLast (List.ne_nil_of_mem (List.mem_of_head? h))⟩
  rw [reading, if_neg hn, Agrees, h, hw]
  exact eq_comm

/-- A formula has the value of its expression with the last variable of every name, and a rule reads the first
one, which looking up finds. The formula reads what rules read when the first and the last variable agree in
their values, as they do where only one variable has the name. -/
theorem membership_formula {e : Engine Float} {t : Term Float} {f : FormulaBody Float} {root : Expr Float}
    (hbody : t.body = .formula f) (hroot : f.root = some root) (x : Float) :
    t.membership e.surroundings x = root.eval (reading e.last? f x) ∧
    (∀ n ∈ root.names, n ≠ "x" → ∀ v, e.variableNamed (Name.text n) = .ok v →
      (∀ ws c rest, ConditionReader.proposition e.vocabulary n ws = .ok (c, rest) →
        ∀ p ∈ c.propositions, p.subject = v.ref) ∧
      (reading e.last? f x n = some v.base.value ↔ e.Agrees n)) ∧
    (∀ n, (e.named n).length ≤ 1 → e.Agrees n) ∧
    ((∀ n ∈ root.names, n ≠ "x" → e.Agrees n) →
      t.membership e.surroundings x = root.eval (reading e.first? f x)) := by
  refine ⟨e.membership_eq hbody hroot x, fun n _ hn v hv => ?_, fun n => agrees_of_length_le_one, fun h => ?_⟩
  · rw [variableNamed_eq] at hv
    cases hfirst : e.first? n with
    | none =>
      rw [hfirst] at hv
      cases hv
    | some u =>
      rw [hfirst] at hv
      cases hv
      refine ⟨fun ws c rest hread p hp => ?_, reading_eq_iff_agrees hn hfirst f x⟩
      have hsubject := subject_of_proposition hread p hp
      rw [ref_find?_vocabulary, hfirst] at hsubject
      exact (Option.some.inj hsubject).symm
  · rw [e.membership_eq hbody hroot x]
    refine Expr.eval_congr fun n hn => ?_
    unfold reading
    split
    · rfl
    next hx => rw [h n hn hx]

/-- An input of the given value. -/
def twinInput (x : Float) : Variable Float := (Variable.empty "a" 0.0 4.0).assign x

/-- Two inputs share a name. -/
def twins : Engine Float := ((empty "twins").addInput (twinInput 1.0)).addInput (twinInput 3.0)

/-- A formula that is nothing but the name. -/
def copyTerm : Term Float := ⟨0, "copy", .formula ⟨"a", some (.reference "a"), []⟩⟩

/-- Looking the name up gives the first of the two, but the formula has the value of the second. -/
theorem membership_formula_twins :
    (∃ v, twins.variableNamed "a" = .ok v ∧ v.base.value = 1.0 ∧
      reading twins.last? ⟨"a", some (.reference "a"), []⟩ 0.0 "a" ≠ some v.base.value) ∧
    copyTerm.membership twins.surroundings 0.0 = .ok 3.0 := by
  obtain ⟨hmembership, hnames, -⟩ := membership_formula (e := twins) (t := copyTerm) rfl rfl 0.0
  have hvalue : ((Expr.reference "a").eval
      (reading twins.last? ⟨"a", some (.reference "a"), []⟩ 0.0)).toOption = some (3.0 : Float) := by
    decide +kernel
  have hfirst : (twins.variableNamed "a").toOption.map (fun v => v.base.value) = some 1.0 := by decide +kernel
  obtain ⟨v, hv, hone⟩ := Option.map_eq_some_iff.1 hfirst
  have hv := Checked.eq_ok_of_toOption hv
  refine ⟨⟨v, hv, hone, fun h => ?_⟩, by rw [hmembership]; exact Checked.eq_ok_of_toOption hvalue⟩
  -- the two inputs have different values
  have hdiffer : ¬twins.Agrees "a" := by decide +kernel
  exact hdiffer ((hnames "a" (List.mem_singleton.2 rfl) (by decide) v hv).2.1 h)

end Engine

end FuzzyInference
