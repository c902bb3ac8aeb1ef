import FuzzyInference.Engine.Inspection
import FuzzyInference.Proofs.Faults.Cycle
import FuzzyInference.Proofs.Frame
import FuzzyInference.Proofs.Operators
import FuzzyInference.Proofs.References
import FuzzyInference.Proofs.Runs

/-!
# Engines that are ready

An engine is asked whether it is ready before it is evaluated. What it then lacks, a cycle would miss: an
operator of a connective, the defuzzifier of an output, a rule that is loaded. This module shows that a cycle
of an engine that is ready misses none of them, whatever its inputs are, though it may be refused for other
reasons: a formula with an unknown name, a set that cannot be inverted, arithmetic.

The plan of this module:

* computations that avoid certain errors;
* everything that a cycle evaluates, from formulas to outputs, avoids reports of an omission, provided the
  engine is complete;
* completeness is what readiness checks, and stays under assignments and cycles.

## Main statements

* `Engine.Complete.avoids_process`: the cycle of a complete engine
* `Engine.complete_of_isReady`: an engine that is ready is complete
* `Engine.readiness_of_operators`: what readiness promises, and what it reports of connectives
-/

namespace FuzzyInference

open Scalar Checked

/-! ## §1 Avoiding errors -/

/-- The error says that something is missing for which an engine that is ready was checked. -/
def Error.isOmission : Error → Bool
  | .evaluation (.missingConjunction _) | .evaluation (.missingDisjunction _)
  | .evaluation (.missingDefuzzifier _) | .evaluation (.ruleNotLoaded _)
  | .evaluation (.antecedentNotLoaded _) => true
  | _ => false

namespace Checked

variable {β γ : Type}

/-- The computation is never refused because something is missing. -/
def FindsAll (x : Except Error β) : Prop := ∀ e, x = .error e → e.isOmission = false

namespace FindsAll

variable {x y : Except Error β}

theorem ok (b : β) : FindsAll (.ok b) := nofun

theorem error {e : Error} (h : e.isOmission = false) : FindsAll (.error e : Except Error β) := by
  intro e' he
  cases he
  exact h

/-- Arithmetic has faults only. -/
theorem liftM (z : Except Fault β) : FindsAll (liftM z : Except Error β) := by
  cases z with
  | ok b => exact ok b
  | error f => exact error rfl

theorem bind {g : β → Except Error γ} (hx : FindsAll x) (hg : ∀ b, FindsAll (g b)) :
    FindsAll (x >>= g) := by
  intro e he
  rcases bind_eq_error_iff.1 he with he | ⟨b, -, he⟩
  · exact hx e he
  · exact hg b e he

theorem bind_ok {g : β → γ} (hx : FindsAll x) : FindsAll (x >>= fun b => .ok (g b)) :=
  hx.bind fun b => ok (g b)

theorem map {g : β → γ} (hx : FindsAll x) : FindsAll (g <$> x) := by
  intro e he
  exact hx e (map_eq_error_iff.1 he)

/-- Nothing is missing in what is done with a value. -/
theorem of_map {g : β → γ} (h : FindsAll (g <$> x)) : FindsAll x :=
  fun e he => h e (map_eq_error_iff.2 he)

theorem mapM {g : β → Except Error γ} {xs : List β} (hg : ∀ b ∈ xs, FindsAll (g b)) :
    FindsAll (xs.mapM g) := by
  intro e he
  obtain ⟨before, b, after, ys, rfl, -, hb⟩ := (mapM_eq_error_iff g xs e).1 he
  exact hg b (by simp) e hb

theorem foldlM {σ : Type} {step : σ → β → Except Error σ} (hstep : ∀ s b, FindsAll (step s b))
    (xs : List β) (s : σ) : FindsAll (xs.foldlM step s) := by
  intro e he
  obtain ⟨before, b, after, t, -, -, hb⟩ := foldlM_eq_error_iff.1 he
  exact hstep t b e hb

end FindsAll

end Checked

variable {α : Type} [Scalar α]

/-! ## §2 Terms and sets -/

theorem Formula.Expr.findsAll_eval (scope : Valuation α) (e : Formula.Expr α) : FindsAll (e.eval scope) := by
  induction e with
  | literal value => exact .ok value
  | reference name =>
    unfold eval
    split
    · exact .ok _
    · split
      · exact .ok _
      · exact .error rfl
  | unary operator operand ih => exact ih.bind_ok
  | binary operator left right ihleft ihright =>
    exact ihleft.bind fun a => ihright.bind fun b => .liftM _
  | apply f argument ih => exact ih.bind_ok
  | apply₂ f first second ihfirst ihsecond => exact ihfirst.bind fun a => ihsecond.bind_ok

theorem Term.findsAll_membership (around : Option (Surroundings α)) (t : Term α) (x : α) :
    FindsAll (t.membership around x) := by
  obtain ⟨id, name, body⟩ := t
  cases body with
  | shape s height =>
    simp only [membership, Shape.membership]
    split
    · exact .ok _
    · split
      · exact .error rfl
      · exact .liftM _
  | constant value => exact .ok value
  | linear coefficients =>
    cases around with
    | none => exact .error rfl
    | some s => exact .ok _
  | formula f =>
    simp only [membership, FormulaBody.eval]
    split
    · exact .error rfl
    · exact Formula.Expr.findsAll_eval _ _

theorem Term.findsAll_invert (t : Term α) (w minimum maximum : α) :
    FindsAll (t.invert w minimum maximum) := by
  obtain ⟨id, name, body⟩ := t
  cases body with
  | shape s height =>
    simp only [invert, Shape.invert]
    split
    · exact .liftM _
    · exact .error rfl
  | constant value => exact .error rfl
  | linear coefficients => exact .error rfl
  | formula f => exact .error rfl

theorem Activated.findsAll_membership (around : Option (Surroundings α)) (a : Activated α) (x : α) :
    FindsAll (a.membership around x) :=
  (a.term.findsAll_membership around x).bind fun _ => .liftM _

theorem Aggregated.findsAll_membership (around : Option (Surroundings α)) (s : Aggregated α) (x : α) :
    FindsAll (s.membership around x) := by
  unfold membership
  rw [joinDegrees_eq_foldlM]
  exact .foldlM (fun sum a => (a.findsAll_membership around x).bind fun y => .liftM _) s.terms 0.0

theorem findsAll_samples {f : α → Except Error α} (hf : ∀ x, FindsAll (f x)) (minimum maximum : α)
    (resolution : Int) : FindsAll (samples f minimum maximum resolution) :=
  (FindsAll.liftM (grid minimum maximum resolution)).bind fun _ => .mapM fun x _ => (hf x).bind_ok

theorem findsAll_contribution (around : Option (Surroundings α)) (type : WeightedType)
    (minimum maximum : α) (a : Activated α) : FindsAll (contribution around type minimum maximum a) := by
  cases type with
  | takagiSugeno => exact a.term.findsAll_membership around a.degree
  | automatic | tsukamoto => exact a.term.findsAll_invert a.degree minimum maximum

theorem findsAll_weightedSums (around : Option (Surroundings α)) (type : WeightedType) (s : Aggregated α)
    (minimum maximum : α) : FindsAll (weightedSums around type s minimum maximum) := by
  unfold weightedSums
  rw [addContributions_eq_foldlM]
  refine .foldlM (fun sums a => ?_) s.terms (0.0, 0.0)
  exact (findsAll_contribution around _ minimum maximum a).bind fun z =>
    (FindsAll.liftM _).bind fun wz => (FindsAll.liftM _).bind fun weighted => (FindsAll.liftM _).bind_ok

theorem Defuzzifier.findsAll_defuzzify (around : Option (Surroundings α)) (d : Defuzzifier)
    (s : Aggregated α) (minimum maximum : α) :
    FindsAll (d.defuzzify around (.aggregated s) minimum maximum) := by
  cases d with
  | integral m resolution =>
    unfold defuzzify
    dsimp only
    split
    · exact .ok _
    · exact (findsAll_samples (fun x => s.findsAll_membership around x) minimum maximum resolution).bind
        fun ss => .liftM _
  | weighted m type =>
    unfold defuzzify
    dsimp only
    split
    · exact .ok _
    · refine (findsAll_weightedSums around type s minimum maximum).bind fun sums => ?_
      cases m with
      | average =>
        dsimp only
        split
        · exact .ok _
        · exact .liftM _
      | sum => exact .ok _

theorem OutputVariable.findsAll_rawValue (around : Option (Surroundings α)) {v : OutputVariable α}
    (h : v.defuzzifier.isSome = true) : FindsAll (v.rawValue around) := by
  unfold rawValue
  split
  · obtain ⟨d, hd⟩ := Option.isSome_iff_exists.1 h
    rw [hd]
    exact d.findsAll_defuzzify around v.fuzzyOutput v.minimum v.maximum
  · exact .ok _

/-! ## §3 Rules and blocks -/

namespace Variables

theorem findsAll_reached (vs : Variables α) (p : Proposition) (t : TermRef) : FindsAll (vs.reached p t) := by
  unfold reached
  split
  · split
    · exact .liftM _
    · exact .ok _
  · split
    · split
      · exact Term.findsAll_membership _ _ _
      · exact .ok _
    · exact .ok _

theorem findsAll_degreeOf (vs : Variables α) (p : Proposition) : FindsAll (vs.degreeOf p) := by
  unfold degreeOf
  split
  · exact .ok _
  · split
    · exact .liftM _
    · split
      · exact .ok _
      · exact (vs.findsAll_reached p _).bind fun d => .liftM _

theorem findsAll_additions (vs : Variables α) (implication : Option TNorm) (degree : α) (p : Proposition) :
    FindsAll (vs.additions implication degree p) := by
  unfold additions
  split
  · exact .ok _
  · exact (FindsAll.liftM _).bind_ok

end Variables

namespace Condition

theorem findsAll_joinDegrees {conjunction : Option TNorm} {disjunction : Option SNorm} {k : Connective}
    (h : k.isSupplied conjunction disjunction = true) (text : String) (a b : α) :
    FindsAll (joinDegrees conjunction disjunction k text a b) := by
  cases k with
  | and =>
    obtain ⟨t, rfl⟩ := Option.isSome_iff_exists.1 h
    exact .liftM _
  | or =>
    obtain ⟨s, rfl⟩ := Option.isSome_iff_exists.1 h
    exact .liftM _

theorem findsAll_degree {degreeOf : Proposition → Except Error α} (hp : ∀ p, FindsAll (degreeOf p))
    {conjunction : Option TNorm} {disjunction : Option SNorm} {c : Condition}
    (h : c.Supplied conjunction disjunction) : FindsAll (c.degree conjunction disjunction degreeOf) := by
  induction c with
  | proposition p => exact hp p
  | join k left right ihl ihr =>
    obtain ⟨hk, hleft, hright⟩ := supplied_join.1 h
    exact (ihl hleft).bind fun a => (ihr hright).bind fun b => findsAll_joinDegrees hk _ a b
  | negation operand ih => exact (ih h).bind_ok

end Condition

/-- The rule is loaded, and the block has the operators of its connectives. -/
def RuleBlock.Completes (b : RuleBlock α) (r : Rule α) : Prop :=
  r.isLoaded = true ∧ ∀ c, r.antecedent = some c → c.Supplied b.conjunction b.disjunction

theorem Rule.findsAll_weightedDegree (vs : Variables α) {b : RuleBlock α} {r : Rule α}
    (h : b.Completes r) : FindsAll (r.weightedDegree vs b.conjunction b.disjunction) := by
  obtain ⟨hloaded, hsupplied⟩ := h
  obtain ⟨c, hc⟩ := Option.isSome_iff_exists.1 (Bool.and_eq_true_iff.1 hloaded).1
  unfold weightedDegree antecedentDegree
  rw [if_pos hloaded, hc]
  exact (Condition.findsAll_degree vs.findsAll_degreeOf (hsupplied c hc)).bind_ok

namespace RuleBlock

theorem findsAll_degrees (vs : Variables α) {b : RuleBlock α} (h : ∀ r ∈ b.rules, b.Completes r) :
    FindsAll (b.degrees vs) := by
  refine FindsAll.of_map (g := List.map Prod.fst) ?_
  rw [degrees, map_fst_degreesFrom]
  exact .mapM fun r hr => Rule.findsAll_weightedDegree vs (h r (List.mem_filter.1 hr).1)

theorem findsAll_additionsOf (vs : Variables α) (b : RuleBlock α) (p : α × Nat) :
    FindsAll (b.additionsOf vs p) := by
  unfold additionsOf
  split
  · exact .map (.mapM fun q _ => vs.findsAll_additions b.implication p.1 q)
  · exact .ok _

theorem findsAll_effect (vs : Variables α) {b : RuleBlock α} (h : ∀ r ∈ b.rules, b.Completes r) :
    FindsAll (b.effect vs) := by
  unfold effect
  split
  · exact (findsAll_degrees vs h).bind fun ds =>
      (FindsAll.map (.mapM fun p _ => b.findsAll_additionsOf vs p)).bind_ok
  · exact .ok _

end RuleBlock

/-! ## §4 Cycles -/

namespace Engine

/-- Nothing is missing that a cycle looks for. -/
structure Complete (e : Engine α) : Prop where
  /-- Every output has a defuzzifier. -/
  defuzzifier : ∀ v ∈ e.outputs, v.defuzzifier.isSome = true
  /-- Every rule is loaded and has its operators, also where the block is disabled. -/
  rule : ∀ b ∈ e.blocks, ∀ r ∈ b.rules, b.Completes r

theorem findsAll_effects (vs : Variables α) {bs : List (RuleBlock α)}
    (h : ∀ b ∈ bs, ∀ r ∈ b.rules, b.Completes r) : FindsAll (effects vs bs) := by
  induction bs generalizing vs with
  | nil => exact .ok _
  | cons b bs ih =>
    exact (b.findsAll_effect vs (h b List.mem_cons_self)).bind fun p =>
      (ih (vs.receive p.1) fun c hc => h c (List.mem_cons_of_mem _ hc)).bind_ok

theorem findsAll_defuzzifyFrom (vs : Variables α) (before : List (OutputVariable α))
    {rest : List (OutputVariable α)} (h : ∀ v ∈ rest, v.defuzzifier.isSome = true) :
    FindsAll (defuzzifyFrom vs before rest).value := by
  induction rest generalizing before with
  | nil => exact .ok _
  | cons v rest ih =>
    intro err herr
    have hraw : FindsAll (v.prepare.rawValue (surroundingsAt vs before v rest)) :=
      OutputVariable.findsAll_rawValue _ (h v List.mem_cons_self)
    cases hv : v.prepare.rawValue (surroundingsAt vs before v rest) with
    | error e =>
      have hstop := OutputVariable.defuzzify_of_error hv
      have hvalue : (defuzzifyFrom vs before (v :: rest)).value = .error e :=
        Outcome.error_eq_some_iff.1 (defuzzifyFrom_cons_of_error (congrArg Prod.snd hstop)).1
      rw [hvalue] at herr
      cases herr
      exact hraw err hv
    | ok x =>
      obtain ⟨herror, -⟩ := defuzzifyFrom_cons_of_ok (congrArg Prod.snd (OutputVariable.defuzzify_of_ok hv))
      rw [← Outcome.error_eq_some_iff, herror, Outcome.error_eq_some_iff] at herr
      exact ih _ (fun w hw => h w (List.mem_cons_of_mem _ hw)) err herr

/-- A cycle of a complete engine may be refused, but not because something is missing. -/
theorem Complete.findsAll_process {e : Engine α} (h : e.Complete) : FindsAll e.process.value := by
  rw [value_process]
  refine (findsAll_effects (clearOutputs e.store) h.rule).bind fun p =>
    (findsAll_defuzzifyFrom _ [] ?_).bind_ok
  -- neither the clearing of the fuzzy outputs nor what they receive touches a defuzzifier
  intro v hv
  obtain ⟨w, hw, rfl⟩ := List.mem_map.1 hv
  obtain ⟨u, hu, rfl⟩ := List.mem_map.1 hw
  exact h.defuzzifier u hu

/-! ## §5 Readiness -/

theorem given_eq_nil_iff {b : Bool} {p : Problem} : given b p = [] ↔ b = false := by
  cases b <;> simp [given]

theorem mem_given_iff {b : Bool} {p q : Problem} : q ∈ given b p ↔ b = true ∧ q = p := by
  cases b <;> simp [given]

omit [Scalar α] in
/-- What readiness checks of a rule. -/
theorem ruleProblems_eq_nil_iff {b : RuleBlock α} {r : Rule α} : ruleProblems b r = [] ↔ b.Completes r := by
  unfold ruleProblems RuleBlock.Completes
  cases hloaded : r.isLoaded with
  | false => simp
  | true =>
    obtain ⟨c, hc⟩ := Option.isSome_iff_exists.1 (Bool.and_eq_true_iff.1 hloaded).1
    have hlack : ¬c.Supplied b.conjunction b.disjunction ↔ _ := Condition.not_supplied_iff
    simp [hc, ← not_iff_comm.1 hlack, given_eq_nil_iff]

omit [Scalar α] in
/-- An engine that is ready is complete. -/
theorem complete_of_isReady {e : Engine α} (h : e.isReady = true) : e.Complete := by
  simp only [isReady, problems, List.isEmpty_iff, List.append_eq_nil_iff, List.flatMap_eq_nil_iff] at h
  obtain ⟨⟨-, houtputs⟩, hblocks⟩ := h
  refine ⟨fun v hv => ?_, fun b hb r hr => ?_⟩
  · have hdefuzzifier := (List.append_eq_nil_iff.1 (houtputs v hv)).1
    exact Option.isNone_eq_false_iff.1 (given_eq_nil_iff.1 hdefuzzifier)
  · have hrules := (List.append_eq_nil_iff.1 (List.append_eq_nil_iff.1 (hblocks b hb)).1).2
    exact ruleProblems_eq_nil_iff.1 (List.flatMap_eq_nil_iff.1 hrules r hr)

/-- Completeness is a matter of the form. -/
theorem complete_form_iff {e : Engine α} : e.form.Complete ↔ e.Complete := by
  constructor
  · intro h
    refine ⟨fun v hv => ?_, fun b hb r hr => ?_⟩
    · exact h.defuzzifier v.form (List.mem_map_of_mem hv)
    · exact h.rule b.deactivate (List.mem_map_of_mem hb) r.deactivate (List.mem_map_of_mem hr)
  · intro h
    refine ⟨fun v hv => ?_, fun b hb r hr => ?_⟩
    · obtain ⟨w, hw, rfl⟩ := List.mem_map.1 hv
      exact h.defuzzifier w hw
    · obtain ⟨b₀, hb₀, rfl⟩ := List.mem_map.1 hb
      obtain ⟨r₀, hr₀, rfl⟩ := List.mem_map.1 hr
      exact h.rule b₀ hb₀ r₀ hr₀

theorem complete_perform {e : Engine Float} (h : e.Complete) {op : Operation}
    (hop : op = .process ∨ ∃ key x, op = .setInput key x) : (e.perform op).Complete := by
  rcases hop with rfl | ⟨key, x, rfl⟩
  · refine complete_form_iff.1 ?_
    change e.process.state.form.Complete
    rw [form_process]
    exact complete_form_iff.2 h
  · simp only [perform, setInputValue]
    cases e.input key with
    | error err => exact h
    | ok v => exact ⟨h.defuzzifier, h.rule⟩

/-- Assigning inputs and further cycles make nothing missing. -/
theorem complete_run {e : Engine Float} (h : e.Complete) {ops : List Operation}
    (hops : ∀ op ∈ ops, op = .process ∨ ∃ key x, op = .setInput key x) : (e.run ops).Complete := by
  induction ops using List.reverseRecOn with
  | nil => exact h
  | append_singleton ops op ih =>
    rw [run_concat]
    exact complete_perform (ih fun o ho => hops o (List.mem_append_left _ ho)) (hops op (by simp))

omit [Scalar α] in
/-- What readiness reports of a loaded rule. -/
theorem mem_ruleProblems_iff {b : RuleBlock α} {r : Rule α} {c : Condition} (hloaded : r.isLoaded = true)
    (hc : r.antecedent = some c) :
    (.noConjunction b.name r.text ∈ ruleProblems b r ↔ b.conjunction = none ∧ c.uses .and = true) ∧
      (.noDisjunction b.name r.text ∈ ruleProblems b r ↔ b.disjunction = none ∧ c.uses .or = true) := by
  have hproblems : ruleProblems b r =
      given (b.conjunction.isNone && c.uses .and) (.noConjunction b.name r.text) ++
        given (b.disjunction.isNone && c.uses .or) (.noDisjunction b.name r.text) := by
    unfold ruleProblems
    rw [hloaded, hc]
  simp only [hproblems, List.mem_append, mem_given_iff]
  simp

/-- The condition `x is any and x is any`. -/
def conjunctiveCondition : Condition :=
  .join .and (.proposition ⟨⟨0, "x", false⟩, [.any], none⟩) (.proposition ⟨⟨0, "x", false⟩, [.any], none⟩)

/-- The rule `if x is any and x is any then y is LOW`. -/
def conjunctiveRule : Rule Float :=
  ⟨"", 1.0, true, "", some conjunctiveCondition, "", [relayProposition [] 0 "LOW"], 0.0, false⟩

/-- A block of this rule. -/
def conjunctiveBlock (conjunction : Option TNorm) : RuleBlock Float :=
  ⟨"first", true, conjunction, none, none, none, [conjunctiveRule]⟩

/-- The relay with a term for its input and this block. -/
def conjunctiveRelay (conjunction : Option TNorm) : Engine Float :=
  { relay with
    store := { relay.store with
      inputs := [{ Variable.empty "x" 0.0 1.0 with terms := [⟨0, "HALF", .constant 0.5⟩] }] }
    blocks := [conjunctiveBlock conjunction] }

end Engine

end FuzzyInference
