import FuzzyInference.Proofs.Value
import FuzzyInference.Term.Parameters

/-!
# Configuring terms again

A term that is configured again takes the new parameters over, or refuses them. Shapes, constants and linear terms
read all parameters before they take any, so that nothing is left behind by a refusal. A formula takes its text
over before it parses it: a text that does not parse is what the term shows from then on, while the expression is
still the one before, and so are all degrees.

The plan of this module:

* a term that is not a formula, and one that is;
* what a refusal leaves behind;
* what is left of a formula after being configured many times.

## Main statements

* `Term.configure_refused`: one refusal
* `Term.body_configureAll`: a history of texts, with refusals or without
-/

namespace FuzzyInference.Term

variable {t : Term Float} {f : FormulaBody Float} {parameters : Value}

/-! ## §1 One configuration -/

/-- A term that is not a formula is what it was before, if it refuses its parameters: all of them are read
first. -/
theorem configure_of_not_formula (hbody : ∀ f, t.body ≠ .formula f) {e : Error}
    (h : (t.configure parameters).2 = .error e) : (t.configure parameters).1 = t := by
  unfold configure at h ⊢
  cases ht : t.body with
  | formula f => exact absurd ht (hbody f)
  | _ =>
    rw [ht] at h
    dsimp only at h ⊢
    split at h
    · cases h
    · rfl

/-- A formula is configured by loading the text of its parameters. -/
theorem configure_of_formulaText (hbody : t.body = .formula f) {formula : String}
    (htext : formulaText parameters = .ok formula) : t.configure parameters = t.loadFormula f formula := by
  unfold configure
  rw [hbody]
  dsimp only
  rw [htext]

/-- Parameters that cannot be written as a text are refused without being looked at further. -/
theorem configure_of_formulaText_error (hbody : t.body = .formula f) {fault : Fault}
    (htext : formulaText parameters = .error fault) : t.configure parameters = (t, .error (.fault fault)) := by
  unfold configure
  rw [hbody]
  dsimp only
  rw [htext]

/-- A text that does not parse is kept beside the expression that is already there. -/
theorem loadFormula_of_error {formula : String} {e : Error} (h : Formula.parse formula = .error e) :
    t.loadFormula f formula = ({ t with body := .formula { f with formula := formula } }, .error e) := by
  unfold loadFormula
  rw [h]

theorem loadFormula_of_ok {formula : String} {root : Formula.Expr Float} (h : Formula.parse formula = .ok root) :
    t.loadFormula f formula = ({ t with body := .formula ⟨formula, some root, f.extra⟩ }, .ok ()) := by
  unfold loadFormula
  rw [h]

/-! ## §2 Refusals -/

/-- A refusal leaves the term as it was, or changes the text of a formula, and only that. -/
theorem configure_error_cases {e : Error} (h : (t.configure parameters).2 = .error e) :
    (t.configure parameters).1 = t ∨
      ∃ f formula, t.body = .formula f ∧ formulaText parameters = .ok formula ∧ Formula.parse formula = .error e ∧
        (t.configure parameters).1 = { t with body := .formula { f with formula := formula } } := by
  cases hbody : t.body with
  | formula f =>
    cases htext : formulaText parameters with
    | error fault =>
      rw [configure_of_formulaText_error hbody htext]
      exact .inl rfl
    | ok formula =>
      rw [configure_of_formulaText hbody htext] at h ⊢
      cases hparse : Formula.parse formula with
      | ok root =>
        rw [loadFormula_of_ok hparse] at h
        cases h
      | error e' =>
        rw [loadFormula_of_error hparse] at h ⊢
        cases h
        exact .inr ⟨f, formula, rfl, rfl, hparse, rfl⟩
  | _ => exact .inl (configure_of_not_formula (by rw [hbody]; nofun) h)

theorem parameters_of_formula (hbody : t.body = .formula f) (decimals : ℕ) :
    t.parameters decimals = f.formula := by
  unfold parameters
  rw [hbody]

/-- A text that the formula already has changes nothing. -/
theorem withFormula_eq_self_iff (hbody : t.body = .formula f) (formula : String) :
    { t with body := .formula { f with formula := formula } } = t ↔ formula = f.formula := by
  obtain ⟨id, name, body⟩ := t
  obtain ⟨text, root, extra⟩ := f
  cases hbody
  constructor
  · intro h
    cases h
    rfl
  · rintro rfl
    rfl

/-- What the engine asks a term for does not depend on the text of a formula, only on its expression. -/
theorem membership_of_formula {formula : String} (hbody : t.body = .formula f)
    (around : Option (Surroundings Float)) (x : Float) :
    membership around { t with body := .formula { f with formula := formula } } x = t.membership around x := by
  unfold membership
  rw [hbody]
  rfl

/-- A refused configuration changes no degree. It leaves the term as it was, unless the term is a formula and the
parameters are another text than it has: this text is then what the term shows, whether it is loaded or given as
parameters. -/
theorem configure_refused {e : Error} (h : (t.configure parameters).2 = .error e) :
    (∀ around x, (t.configure parameters).1.membership around x = t.membership around x) ∧
      ((t.configure parameters).1 = t ↔
        ∀ decimals, (t.configure parameters).1.parameters decimals = t.parameters decimals) ∧
      ((t.configure parameters).1 ≠ t ↔
        ∃ f formula, t.body = .formula f ∧ formulaText parameters = .ok formula ∧ formula ≠ f.formula ∧
          (t.configure parameters).1 = { t with body := .formula { f with formula := formula } }) ∧
      ∀ f formula, t.body = .formula f → t.loadFormula f formula = t.configure (.text formula) := by
  have hcases := configure_error_cases h
  generalize (t.configure parameters).1 = after at hcases ⊢
  refine ⟨?_, ⟨?_, ?_⟩, ⟨?_, ?_⟩, ?_⟩
  · intro around x
    rcases hcases with rfl | ⟨f, formula, hbody, -, -, rfl⟩
    · rfl
    · exact membership_of_formula hbody around x
  · rintro rfl decimals
    rfl
  · intro hparameters
    rcases hcases with rfl | ⟨f, formula, hbody, -, -, rfl⟩
    · rfl
    · have hsame := hparameters 0
      rw [parameters_of_formula rfl, parameters_of_formula hbody] at hsame
      exact (withFormula_eq_self_iff hbody formula).2 hsame
  · intro hne
    obtain ⟨f, formula, hbody, htext, -, rfl⟩ := hcases.resolve_left hne
    exact ⟨f, formula, hbody, htext, mt (withFormula_eq_self_iff hbody formula).2 hne, rfl⟩
  · rintro ⟨f, formula, hbody, -, hne, rfl⟩
    exact mt (withFormula_eq_self_iff hbody formula).1 hne
  · exact fun f formula hbody => (configure_of_formulaText hbody rfl).symm

/-- A sum that is to be replaced by a text that breaks off. -/
theorem configure_refused_incomplete :
    let t : Term Float := ⟨0, .text "f", .formula ⟨"x + 1", (Formula.parse "x + 1").toOption, []⟩⟩
    ∃ e, (t.configure (.text "x +")).2 = .error e ∧ (t.configure (.text "x +")).1 ≠ t ∧
      (t.configure (.text "x +")).1.parameters 3 = "x +" ∧
      (t.configure (.text "x +")).1.membership none 1.0 = t.membership none 1.0 := by
  intro t
  have hbreaks : (Formula.parse "x +").toOption.isNone = true := by decide +kernel
  cases hparse : Formula.parse "x +" with
  | ok root =>
    rw [hparse] at hbreaks
    cases hbreaks
  | error e =>
    have hconfigure : t.configure (.text "x +") = _ :=
      (configure_of_formulaText rfl rfl).trans (loadFormula_of_error hparse)
    have herror : (t.configure (.text "x +")).2 = .error e := by rw [hconfigure]
    obtain ⟨hmembership, -, hchanged, -⟩ := configure_refused herror
    have hne : (t.configure (.text "x +")).1 ≠ t :=
      hchanged.2 ⟨_, "x +", rfl, rfl, by decide, congrArg Prod.fst hconfigure⟩
    exact ⟨e, herror, hne, by rw [hconfigure]; rfl, hmembership none 1.0⟩

/-! ## §3 Histories -/

/-- The term after one configuration after the other, each of which may be refused. -/
def configureAll (t : Term Float) (history : List Value) : Term Float :=
  history.foldl (fun t parameters => (t.configure parameters).1) t

/-- The texts among the parameters of a history, in order. -/
def texts (history : List Value) : List String := history.filterMap fun p => (formulaText p).toOption

/-- The expressions of the texts that parse, in order. -/
def expressions (history : List Value) : List (Formula.Expr Float) :=
  (texts history).filterMap fun s => (Formula.parse s).toOption

/-- Whatever has been refused in between, a formula shows the last text that it was given, and evaluates the last
one that parses. -/
theorem body_configureAll (history : List Value) (hbody : t.body = .formula f) :
    (t.configureAll history).body =
      .formula ⟨(texts history).getLastD f.formula, (expressions history).getLast? <|> f.root, f.extra⟩ := by
  induction history generalizing t f with
  | nil => exact hbody
  | cons parameters rest ih =>
    change (((t.configure parameters).1).configureAll rest).body = _
    cases htext : formulaText parameters with
    | error fault =>
      have htexts : texts (parameters :: rest) = texts rest := by simp [texts, htext, Except.toOption]
      rw [configure_of_formulaText_error hbody htext, ih hbody]
      simp only [expressions, htexts]
    | ok formula =>
      have htexts : texts (parameters :: rest) = formula :: texts rest := by simp [texts, htext, Except.toOption]
      rw [configure_of_formulaText hbody htext]
      cases hparse : Formula.parse formula with
      | error e =>
        have hexpressions : expressions (parameters :: rest) = expressions rest := by
          simp [expressions, htexts, hparse, Except.toOption]
        rw [loadFormula_of_error hparse, ih rfl, htexts, hexpressions, List.getLastD_cons]
      | ok root =>
        have hexpressions : expressions (parameters :: rest) = root :: expressions rest := by
          simp [expressions, htexts, hparse, Except.toOption]
        have hlast : ((expressions rest).getLast? <|> some root) =
            some ((expressions rest).getLast?.getD root) := by
          cases (expressions rest).getLast? <;> rfl
        rw [loadFormula_of_ok hparse, ih rfl, htexts, hexpressions, List.getLastD_cons, List.getLast?_cons, hlast]
        rfl

end FuzzyInference.Term
