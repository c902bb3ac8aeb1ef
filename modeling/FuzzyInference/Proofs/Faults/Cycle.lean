import FuzzyInference.Proofs.Cycle
import FuzzyInference.Proofs.Faults.Sets

/-!
# Faults of a cycle

A cycle is a long sequence of elementary steps, and a fault of any of them stops it. Whether it gets as far
as that step is decided by all that comes before: the blocks before the one whose rule faults, the rules
before that rule, the outputs before the one that is defuzzified. This module says exactly which faults
escape from a cycle.

The plan of this module:

* propositions, conditions and conclusions;
* rules and blocks;
* defuzzification;
* the cycle.

## Main statements

* `Condition.escapesWhen_degree`: conditions, over any propositions
* `RuleBlock.escapesWhen_effect`, `Engine.escapesWhen_effects`: blocks
* `Engine.escapesWhen_process`: the cycle
-/

namespace FuzzyInference

open Scalar Checked

variable {α : Type} [Scalar α]

/-! ## §1 Propositions and conditions -/

namespace Variables

/-- An output faults where the degrees to which its term was activated cannot be joined, an input where the
term has no degree at its value. -/
def ReachedFaults (vs : Variables α) (p : Proposition) (t : TermRef) (f : Fault) : Prop :=
  if p.subject.isOutput then
    ∃ v, vs.output? p.subject.id = some v ∧
      Aggregated.AccumulateFaults v.fuzzyOutput.aggregation (v.fuzzyOutput.degreesOf t.id) f
  else
    ∃ v u, vs.input? p.subject.id = some v ∧ v.termById? t.id = some u ∧
      u.Faults (some vs.surroundings) v.value f

/-- The degree of a proposition faults in its term or in its hedges. -/
def DegreeFaults (vs : Variables α) (p : Proposition) (f : Fault) : Prop :=
  vs.isEnabled p.subject = true ∧
    if p.matchesAny then Hedge.ChainFaults p.hedges (1.0 : α) f
    else ∃ t, p.term = some t ∧
      (vs.ReachedFaults p t f ∨ ∃ d, vs.reached p t = .ok d ∧ Hedge.ChainFaults p.hedges d f)

/-- A conclusion faults in its hedges. -/
def AdditionFaults (vs : Variables α) (degree : α) (p : Proposition) (f : Fault) : Prop :=
  vs.isEnabled p.subject = true ∧ Hedge.ChainFaults p.hedges degree f

theorem escapesWhen_reached (vs : Variables α) (p : Proposition) (t : TermRef) :
    EscapesWhen (vs.reached p t) (vs.ReachedFaults p t) := by
  unfold reached
  cases hkind : p.subject.isOutput with
  | true =>
    rw [if_pos rfl]
    -- a variable that is not found counts as one that is not reached
    cases hv : vs.output? p.subject.id with
    | none => exact (EscapesWhen.ok _).congr fun f => by simp [ReachedFaults, hkind, hv]
    | some v =>
      exact (EscapesWhen.liftM fun f => Aggregated.accumulateAll_eq_error_iff).congr fun f => by
        simp [ReachedFaults, hkind, hv]
  | false =>
    rw [if_neg (by simp)]
    cases hv : vs.input? p.subject.id with
    | none => exact (EscapesWhen.ok _).congr fun f => by simp [ReachedFaults, hkind, hv]
    | some v =>
      dsimp only
      cases hu : v.termById? t.id with
      | none => exact (EscapesWhen.ok _).congr fun f => by simp [ReachedFaults, hkind, hv, hu]
      | some u =>
        exact (u.escapesWhen_membership (some vs.surroundings) v.value).congr fun f => by
          simp [ReachedFaults, hkind, hv, hu]

theorem escapesWhen_degreeOf (vs : Variables α) (p : Proposition) :
    EscapesWhen (vs.degreeOf p) (vs.DegreeFaults p) := by
  unfold degreeOf
  cases henabled : vs.isEnabled p.subject with
  | false => exact (EscapesWhen.ok _).congr fun f => by simp [DegreeFaults, henabled]
  | true =>
    cases hany : p.matchesAny with
    | true =>
      exact (EscapesWhen.liftM fun f => Hedge.applyAll_eq_error_iff).congr fun f => by
        simp [DegreeFaults, henabled, hany]
    | false =>
      cases hterm : p.term with
      | none => exact (EscapesWhen.ok _).congr fun f => by simp [DegreeFaults, hany, hterm]
      | some t =>
        exact ((vs.escapesWhen_reached p t).bind fun d =>
          .liftM fun f => Hedge.applyAll_eq_error_iff).congr fun f => by
            simp [DegreeFaults, henabled, hany, hterm]

theorem escapesWhen_additions (vs : Variables α) (implication : Option TNorm) (degree : α)
    (p : Proposition) :
    EscapesWhen (vs.additions implication degree p) (vs.AdditionFaults degree p) := by
  unfold additions
  cases henabled : vs.isEnabled p.subject with
  | false => exact (EscapesWhen.ok _).congr fun f => by simp [AdditionFaults, henabled]
  | true =>
    exact (EscapesWhen.bind_ok (.liftM fun f => Hedge.applyAll_eq_error_iff)).congr fun f => by
      simp [AdditionFaults, henabled]

end Variables

namespace Condition

/-- The operator of a connective faults. -/
def JoinFaults (conjunction : Option TNorm) (disjunction : Option SNorm) (c : Connective) (a b : α)
    (f : Fault) : Prop :=
  match c with
  | .and => ∃ t, conjunction = some t ∧ t.Faults a b f
  | .or => ∃ s, disjunction = some s ∧ s.Faults a b f

/-- Conditions are evaluated from left to right. The first proposition or connective that faults is the fault
of the whole. -/
def Faults (conjunction : Option TNorm) (disjunction : Option SNorm)
    (degreeOf : Proposition → Except Error α) (P : Proposition → Fault → Prop) :
    Condition → Fault → Prop
  | proposition p, f => P p f
  | join c left right, f =>
    left.Faults conjunction disjunction degreeOf P f ∨
      ∃ a, left.degree conjunction disjunction degreeOf = .ok a ∧
        (right.Faults conjunction disjunction degreeOf P f ∨
          ∃ b, right.degree conjunction disjunction degreeOf = .ok b ∧
            JoinFaults conjunction disjunction c a b f)
  | negation operand, f => operand.Faults conjunction disjunction degreeOf P f

theorem escapesWhen_joinDegrees (conjunction : Option TNorm) (disjunction : Option SNorm)
    (c : Connective) (whole : String) (a b : α) :
    EscapesWhen (joinDegrees conjunction disjunction c whole a b)
      (JoinFaults conjunction disjunction c a b) := by
  cases c with
  | and =>
    cases conjunction with
    | none => exact (EscapesWhen.evaluation _).congr fun f => by simp [JoinFaults]
    | some t =>
      exact (EscapesWhen.liftM fun f => TNorm.compute_eq_error_iff).congr fun f => by simp [JoinFaults]
  | or =>
    cases disjunction with
    | none => exact (EscapesWhen.evaluation _).congr fun f => by simp [JoinFaults]
    | some s =>
      exact (EscapesWhen.liftM fun f => SNorm.compute_eq_error_iff).congr fun f => by simp [JoinFaults]

/-- Whatever escapes from the propositions and the connectives of a condition escapes from it. -/
theorem escapesWhen_degree {degreeOf : Proposition → Except Error α} {P : Proposition → Fault → Prop}
    (hP : ∀ p, EscapesWhen (degreeOf p) (P p)) (conjunction : Option TNorm)
    (disjunction : Option SNorm) (c : Condition) :
    EscapesWhen (c.degree conjunction disjunction degreeOf)
      (c.Faults conjunction disjunction degreeOf P) := by
  -- by the shape of the tree; both sides are evaluated before their connective
  induction c with
  | proposition p => exact hP p
  | join c left right hleft hright =>
    exact hleft.bind fun a => hright.bind fun b =>
      escapesWhen_joinDegrees conjunction disjunction c (join c left right).text a b
  | negation operand ih => exact ih.bind_ok

end Condition

/-! ## §2 Rules and blocks -/

/-- A loaded rule faults in its condition. -/
def Rule.DegreeFaults (vs : Variables α) (conjunction : Option TNorm) (disjunction : Option SNorm)
    (r : Rule α) (f : Fault) : Prop :=
  r.isLoaded = true ∧ ∃ c, r.antecedent = some c ∧
    c.Faults conjunction disjunction vs.degreeOf vs.DegreeFaults f

theorem Rule.escapesWhen_weightedDegree (vs : Variables α) (conjunction : Option TNorm)
    (disjunction : Option SNorm) (r : Rule α) :
    EscapesWhen (r.weightedDegree vs conjunction disjunction)
      (r.DegreeFaults vs conjunction disjunction) := by
  unfold weightedDegree antecedentDegree
  cases hloaded : r.isLoaded with
  | false => exact (EscapesWhen.evaluation _).congr fun f => by simp [DegreeFaults, hloaded]
  | true =>
    cases hc : r.antecedent with
    | none =>
      exact (EscapesWhen.bind_ok (.evaluation _)).congr fun f => by simp [DegreeFaults, hc]
    | some c =>
      refine (EscapesWhen.bind_ok (c.escapesWhen_degree vs.escapesWhen_degreeOf conjunction
        disjunction)).congr fun f => ?_
      simp [DegreeFaults, hloaded, hc]

namespace RuleBlock

/-- The degrees alone, without the indices of the rules. -/
theorem map_fst_degreesFrom (vs : Variables α) (b : RuleBlock α) (n : Nat) (rs : List (Rule α)) :
    List.map Prod.fst <$> degreesFrom vs b n rs =
      (rs.filter isActive).mapM fun r => r.weightedDegree vs b.conjunction b.disjunction := by
  induction rs generalizing n with
  | nil => rfl
  | cons r rs ih =>
    rw [degreesFrom_cons, List.filter_cons]
    split
    · rw [List.mapM_cons, ← ih (n + 1)]
      cases r.weightedDegree vs b.conjunction b.disjunction with
      | error e => rfl
      | ok d => cases degreesFrom vs b (n + 1) rs <;> rfl
    · exact ih (n + 1)

/-- One of the active rules faults in its condition, and those before it have degrees. -/
def DegreeFaults (vs : Variables α) (b : RuleBlock α) (f : Fault) : Prop :=
  ∃ before r after, b.rules.filter isActive = before ++ r :: after ∧
    (∀ s ∈ before, ∃ d, s.weightedDegree vs b.conjunction b.disjunction = .ok d) ∧
    r.DegreeFaults vs b.conjunction b.disjunction f

/-- One of the conclusions of a rule faults at the degree with which the rule fires, and those before it can
be drawn. -/
def FiringFaults (vs : Variables α) (b : RuleBlock α) (p : α × Nat) (f : Fault) : Prop :=
  ∃ r, b.rules[p.2]? = some r ∧
    ∃ before c after, r.conclusions = before ++ c :: after ∧
      (∀ q ∈ before, ∃ t, vs.additions b.implication p.1 q = .ok t) ∧ vs.AdditionFaults p.1 c f

/-- A block that is activated faults where one of its rules is evaluated, or where one of those that fire
draws a conclusion and those before it have drawn theirs. -/
def Faults (vs : Variables α) (b : RuleBlock α) (f : Fault) : Prop :=
  b.DegreeFaults vs f ∨
    ∃ ds, b.degrees vs = .ok ds ∧
      ∃ before p after, b.fired ds = before ++ p :: after ∧
        (∀ q ∈ before, ∃ t, b.additionsOf vs q = .ok t) ∧ b.FiringFaults vs p f

theorem escapesWhen_degrees (vs : Variables α) (b : RuleBlock α) :
    EscapesWhen (b.degrees vs) (b.DegreeFaults vs) := by
  -- the indices play no part in what escapes
  refine EscapesWhen.of_map (g := List.map Prod.fst) ?_
  rw [degrees, map_fst_degreesFrom]
  exact .mapM fun r _ => r.escapesWhen_weightedDegree vs b.conjunction b.disjunction

theorem escapesWhen_additionsOf (vs : Variables α) (b : RuleBlock α) (p : α × Nat) :
    EscapesWhen (b.additionsOf vs p) (b.FiringFaults vs p) := by
  unfold additionsOf
  cases hr : b.rules[p.2]? with
  | none => exact (EscapesWhen.ok _).congr fun f => by simp [FiringFaults, hr]
  | some r =>
    refine (EscapesWhen.map (.mapM fun c _ => vs.escapesWhen_additions b.implication p.1 c)).congr
      fun f => ?_
    simp only [FiringFaults, hr, Option.some.injEq, exists_eq_left']

theorem escapesWhen_effect (vs : Variables α) (b : RuleBlock α) :
    EscapesWhen (b.effect vs) fun f => b.enabled = true ∧ b.Faults vs f := by
  unfold effect
  cases henabled : b.enabled with
  | false => exact (EscapesWhen.ok _).congr fun f => by simp
  | true =>
    refine EscapesWhen.congr ((b.escapesWhen_degrees vs).bind fun ds =>
      (EscapesWhen.map (.mapM fun p _ => b.escapesWhen_additionsOf vs p)).bind_ok) fun f => ?_
    simp only [Faults, true_and]

end RuleBlock

namespace Engine

/-- One of the enabled blocks faults against what those before it added. -/
def BlockFaults (vs : Variables α) (bs : List (RuleBlock α)) (f : Fault) : Prop :=
  ∃ i, Visits (fun ws b => b.Faults ws f) vs bs i

theorem blockFaults_cons (vs : Variables α) (b : RuleBlock α) (bs : List (RuleBlock α)) (f : Fault) :
    BlockFaults vs (b :: bs) f ↔
      (b.enabled = true ∧ b.Faults vs f) ∨
        ∃ p, b.effect vs = .ok p ∧ BlockFaults (vs.receive p.1) bs f := by
  constructor
  · rintro ⟨i, hi⟩
    cases i with
    | zero => exact .inl ((visits_zero vs b bs).1 hi)
    | succ i =>
      obtain ⟨p, hp, hi⟩ := (visits_succ vs b bs i).1 hi
      exact .inr ⟨p, hp, i, hi⟩
  · rintro (hb | ⟨p, hp, i, hi⟩)
    · exact ⟨0, (visits_zero vs b bs).2 hb⟩
    · exact ⟨i + 1, (visits_succ vs b bs i).2 ⟨p, hp, hi⟩⟩

theorem escapesWhen_effects (vs : Variables α) (bs : List (RuleBlock α)) :
    EscapesWhen (effects vs bs) (BlockFaults vs bs) := by
  -- the blocks after the first one find what it added
  induction bs generalizing vs with
  | nil => exact (EscapesWhen.ok _).congr fun f => by simp [BlockFaults, not_visits_nil]
  | cons b bs ih =>
    refine EscapesWhen.congr ((b.escapesWhen_effect vs).bind fun p => (ih (vs.receive p.1)).bind_ok)
      fun f => ?_
    rw [blockFaults_cons]

/-! ## §3 Defuzzification -/

/-- Outputs are defuzzified one after the other. One of them faults when those before it have their values. -/
inductive OutputFaults (vs : Variables α) (f : Fault) :
    List (OutputVariable α) → List (OutputVariable α) → Prop
  | here {before : List (OutputVariable α)} {v : OutputVariable α} {rest : List (OutputVariable α)} :
      v.Faults (surroundingsAt vs before v rest) f → OutputFaults vs f before (v :: rest)
  | later {before : List (OutputVariable α)} {v : OutputVariable α} {rest : List (OutputVariable α)} :
      (v.defuzzify (surroundingsAt vs before v rest)).2 = .ok () →
        OutputFaults vs f (before ++ [(v.defuzzify (surroundingsAt vs before v rest)).1]) rest →
        OutputFaults vs f before (v :: rest)

theorem outputFaults_cons {vs : Variables α} {f : Fault} {before : List (OutputVariable α)}
    {v : OutputVariable α} {rest : List (OutputVariable α)} :
    OutputFaults vs f before (v :: rest) ↔
      v.Faults (surroundingsAt vs before v rest) f ∨
        ((v.defuzzify (surroundingsAt vs before v rest)).2 = .ok () ∧
          OutputFaults vs f (before ++ [(v.defuzzify (surroundingsAt vs before v rest)).1]) rest) := by
  constructor
  · rintro (hv | ⟨hv, hrest⟩)
    · exact .inl hv
    · exact .inr ⟨hv, hrest⟩
  · rintro (hv | ⟨hv, hrest⟩)
    · exact .here hv
    · exact .later hv hrest

theorem escapesWhen_defuzzifyFrom (vs : Variables α) (before rest : List (OutputVariable α)) :
    EscapesWhen (defuzzifyFrom vs before rest).value fun f => OutputFaults vs f before rest := by
  induction rest generalizing before with
  | nil =>
    refine (EscapesWhen.ok _).congr fun f => ?_
    exact ⟨False.elim, fun h => nomatch h⟩
  | cons v rest ih =>
    intro err
    have hraw := v.escapesWhen_rawValue (surroundingsAt vs before v rest)
    simp only [outputFaults_cons]
    cases h : v.prepare.rawValue (surroundingsAt vs before v rest) with
    | error e =>
      have hstop := OutputVariable.defuzzify_of_error h
      have hvalue : (defuzzifyFrom vs before (v :: rest)).value = .error e :=
        Outcome.error_eq_some_iff.1 (defuzzifyFrom_cons_of_error (congrArg Prod.snd hstop)).1
      have hsame : (Except.error e : Except Error (Variables α)) = .error err ↔
          v.prepare.rawValue (surroundingsAt vs before v rest) = .error err := by
        simp [h]
      rw [hvalue, hsame, hraw err, hstop]
      simp
    | ok x =>
      have hgo := OutputVariable.defuzzify_of_ok h
      have hnone : ∀ f, ¬v.Faults (surroundingsAt vs before v rest) f := by
        intro f hf
        obtain ⟨herror, -⟩ := (hraw (.fault f)).2 ⟨f, rfl, hf⟩
        cases h.symm.trans herror
      -- an output that has its value does not fault, and the rest decides
      obtain ⟨herror, -⟩ := defuzzifyFrom_cons_of_ok (congrArg Prod.snd hgo)
      rw [← Outcome.error_eq_some_iff, herror, Outcome.error_eq_some_iff, ih _ err, hgo]
      simp [hnone]

/-! ## §4 Cycles -/

/-- A cycle faults in one of its blocks, or, when all of them are done, at one of its outputs. -/
def Faults (e : Engine α) (f : Fault) : Prop :=
  BlockFaults (clearOutputs e.store) e.blocks f ∨
    ∃ p, effects (clearOutputs e.store) e.blocks = .ok p ∧
      OutputFaults ((clearOutputs e.store).receive p.1) f [] ((clearOutputs e.store).receive p.1).outputs

/-- What escapes from a cycle. -/
theorem escapesWhen_process (e : Engine α) : EscapesWhen e.process.value e.Faults := by
  rw [value_process]
  exact (escapesWhen_effects (clearOutputs e.store) e.blocks).bind fun p =>
    (escapesWhen_defuzzifyFrom ((clearOutputs e.store).receive p.1) [] _).bind_ok

end Engine

end FuzzyInference
