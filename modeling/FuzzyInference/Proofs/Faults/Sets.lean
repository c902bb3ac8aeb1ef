import FuzzyInference.Proofs.Faults.Terms
import FuzzyInference.Variable.Basic

/-!
# Faults of fuzzy sets

Activated terms are joined one after the other, and so are the degrees and the weighted values of a weighted
defuzzifier. Each of these faults at the first item at which a membership function, an implication or the
aggregation does, given what was joined before.

The plan of this module:

* activated terms and their aggregation;
* sampling and weighting;
* defuzzifiers and outputs.

## Main statements

* `Aggregated.accumulateAll_eq_error_iff`, `Aggregated.escapesWhen_membership`
* `Defuzzifier.escapesWhen_defuzzify`
* `OutputVariable.escapesWhen_rawValue`
-/

namespace FuzzyInference

open Scalar Checked

variable {α : Type} [Scalar α]

/-! ## §1 Aggregation -/

/-- Only an implication that is a norm can fault; a plain product cannot. -/
def ImpliedFaults (implication : Option TNorm) (degree y : α) (f : Fault) : Prop :=
  ∃ t, implication = some t ∧ t.Faults degree y f

theorem implied_eq_error_iff {implication : Option TNorm} {degree y : α} {f : Fault} :
    implied implication degree y = .error f ↔ ImpliedFaults implication degree y f := by
  cases implication with
  | none => simp [implied, ImpliedFaults]
  | some t => simp [implied, ImpliedFaults, TNorm.compute_eq_error_iff]

def Activated.Faults (around : Option (Surroundings α)) (a : Activated α) (x : α) (f : Fault) : Prop :=
  a.term.Faults around x f ∨
    ∃ y, a.term.membership around x = .ok y ∧ ImpliedFaults a.implication a.degree y f

theorem Activated.escapesWhen_membership (around : Option (Surroundings α)) (a : Activated α) (x : α) :
    EscapesWhen (a.membership around x) (a.Faults around x) :=
  (a.term.escapesWhen_membership around x).bind fun _ => .liftM fun _ => implied_eq_error_iff

namespace Aggregated

/-- Only an aggregation that is a norm can fault. -/
def JoinFaults (aggregation : Option SNorm) (before y : α) (f : Fault) : Prop :=
  ∃ s, aggregation = some s ∧ s.Faults before y f

theorem join_eq_error_iff {aggregation : Option SNorm} {before y : α} {f : Fault} :
    join aggregation before y = .error f ↔ JoinFaults aggregation before y f := by
  cases aggregation with
  | none => simp [join, JoinFaults]
  | some s => simp [join, JoinFaults, SNorm.compute_eq_error_iff]

theorem accumulate_eq_error_iff {aggregation : Option SNorm} {before d : α} {f : Fault} :
    accumulate aggregation before d = .error f ↔ JoinFaults aggregation before d f := by
  cases aggregation with
  | none => simp [accumulate, JoinFaults]
  | some s => simp [accumulate, JoinFaults, SNorm.compute_eq_error_iff]

/-- One of the degrees cannot be added to those before it. -/
def AccumulateFaults (aggregation : Option SNorm) (ds : List α) (f : Fault) : Prop :=
  ∃ before d after sum, ds = before ++ d :: after ∧ accumulateAll aggregation 0.0 before = .ok sum ∧
    JoinFaults aggregation sum d f

theorem accumulateAll_eq_foldlM (aggregation : Option SNorm) (ds : List α) (start : α) :
    accumulateAll aggregation start ds = ds.foldlM (accumulate aggregation) start := by
  induction ds generalizing start with
  | nil => rfl
  | cons d ds ih => simp only [accumulateAll, List.foldlM_cons, ih]

theorem accumulateAll_eq_error_iff {aggregation : Option SNorm} {ds : List α} {f : Fault} :
    accumulateAll aggregation 0.0 ds = .error f ↔ AccumulateFaults aggregation ds f := by
  simp only [accumulateAll_eq_foldlM, foldlM_eq_error_iff, accumulate_eq_error_iff, AccumulateFaults]

/-- The degree of a crisp value cannot be computed for one of the activated terms, or cannot be joined to
those before it. -/
def Faults (around : Option (Surroundings α)) (s : Aggregated α) (x : α) (f : Fault) : Prop :=
  ∃ before a after sum, s.terms = before ++ a :: after ∧
    joinDegrees s.aggregation around x 0.0 before = .ok sum ∧
    (a.Faults around x f ∨
      ∃ y, a.membership around x = .ok y ∧ JoinFaults s.aggregation sum y f)

theorem joinDegrees_eq_foldlM (aggregation : Option SNorm) (around : Option (Surroundings α)) (x : α)
    (as : List (Activated α)) (start : α) :
    joinDegrees aggregation around x start as = as.foldlM (fun before a => do
      let y ← a.membership around x
      join aggregation before y) start := by
  induction as generalizing start with
  | nil => rfl
  | cons a as ih =>
    simp only [joinDegrees, List.foldlM_cons, ih, bind_assoc]

theorem escapesWhen_membership (around : Option (Surroundings α)) (s : Aggregated α) (x : α) :
    EscapesWhen (s.membership around x) (s.Faults around x) := by
  unfold membership Faults
  simp only [joinDegrees_eq_foldlM]
  exact .foldlM (fun sum a => (a.escapesWhen_membership around x).bind fun y =>
    .liftM fun _ => join_eq_error_iff) s.terms 0.0

end Aggregated

/-! ## §2 Sampling and weighting -/

/-- The number of samples is refused, or it is zero. -/
def GridFaults (α : Type) [Scalar α] (resolution : Int) (f : Fault) : Prop :=
  (sampleCount resolution : Except Fault α) = .error f ∨
    ∃ n : α, sampleCount resolution = .ok n ∧ DivideFaults n f

theorem grid_eq_error_iff {minimum maximum : α} {resolution : Int} {f : Fault} :
    grid minimum maximum resolution = .error f ↔ GridFaults α resolution f := by
  simp [grid, GridFaults, bind_eq_error_iff, divide_eq_error_iff]

/-- The grid cannot be laid, or the set has no degree at one of its points. -/
def Aggregated.SampleFaults (around : Option (Surroundings α)) (s : Aggregated α) (minimum maximum : α)
    (resolution : Int) (f : Fault) : Prop :=
  GridFaults α resolution f ∨
    ∃ xs, grid minimum maximum resolution = .ok xs ∧
      ∃ before x after, xs = before ++ x :: after ∧
        (∀ y ∈ before, ∃ d, s.membership around y = .ok d) ∧ s.Faults around x f

theorem Aggregated.escapesWhen_samples (around : Option (Surroundings α)) (s : Aggregated α)
    (minimum maximum : α) (resolution : Int) :
    EscapesWhen (samples (s.membership around) minimum maximum resolution)
      (s.SampleFaults around minimum maximum resolution) := by
  have hgrid : EscapesWhen (liftM (grid minimum maximum resolution) : Except Error (List α))
      (GridFaults α resolution) := .liftM fun f => grid_eq_error_iff
  -- every point is paired with its degree, which adds nothing that can fault
  refine EscapesWhen.congr (hgrid.bind fun xs =>
    EscapesWhen.mapM fun x _ => (s.escapesWhen_membership around x).bind_ok) fun f => ?_
  have hvalue : ∀ y, (∃ z, (s.membership around y >>= fun d => pure (y, d)) = .ok z) ↔
      ∃ d, s.membership around y = .ok d := by
    intro y
    simp [bind_eq_ok_iff, pure, Except.pure]
  simp only [SampleFaults, hvalue, liftM_eq_ok_iff]

/-- Methods that look for a greatest degree find none among no samples. -/
def IntegralMethod.ReduceFaults (m : IntegralMethod) (ss : List (α × α)) (f : Fault) : Prop :=
  m ≠ centroid ∧ m ≠ bisector ∧ ss = [] ∧ f = .noSamples

theorem IntegralMethod.reduce_eq_error_iff {m : IntegralMethod} {minimum maximum : α}
    {ss : List (α × α)} {f : Fault} :
    m.reduce minimum maximum ss = .error f ↔ m.ReduceFaults ss f := by
  cases m <;> cases ss <;> simp [reduce, ReduceFaults, eq_comm]

/-- The value that an activated term contributes is a degree or a value of its term, or an inverse. -/
def ContributionFaults (around : Option (Surroundings α)) (type : WeightedType) (a : Activated α)
    (f : Fault) : Prop :=
  match type with
  | .takagiSugeno => a.term.Faults around a.degree f
  | .automatic | .tsukamoto => a.term.InvertFaults a.degree f

theorem escapesWhen_contribution (around : Option (Surroundings α)) (type : WeightedType)
    (minimum maximum : α) (a : Activated α) :
    EscapesWhen (contribution around type minimum maximum a) (ContributionFaults around type a) := by
  cases type with
  | takagiSugeno => exact a.term.escapesWhen_membership around a.degree
  | automatic => exact a.term.escapesWhen_invert a.degree minimum maximum
  | tsukamoto => exact a.term.escapesWhen_invert a.degree minimum maximum

/-- The contribution of an activated term, its implication or one of both sums faults. -/
def AdditionFaults (around : Option (Surroundings α)) (type : WeightedType) (minimum maximum : α)
    (aggregation : Option SNorm) (sums : α × α) (a : Activated α) (f : Fault) : Prop :=
  ContributionFaults around type a f ∨
    ∃ z, contribution around type minimum maximum a = .ok z ∧
      (ImpliedFaults a.implication a.degree z f ∨
        ∃ wz, implied a.implication a.degree z = .ok wz ∧
          (Aggregated.JoinFaults aggregation sums.1 wz f ∨
            ∃ weighted, Aggregated.accumulate aggregation sums.1 wz = .ok weighted ∧
              Aggregated.JoinFaults aggregation sums.2 a.degree f))

/-- One of the activated terms cannot be added to both sums of those before it. -/
def WeightedSumsFaults (around : Option (Surroundings α)) (type : WeightedType) (s : Aggregated α)
    (minimum maximum : α) (f : Fault) : Prop :=
  ∃ before a after sums, s.terms = before ++ a :: after ∧
    addContributions around (type.resolve s) minimum maximum s.aggregation (0.0, 0.0) before = .ok sums ∧
    AdditionFaults around (type.resolve s) minimum maximum s.aggregation sums a f

theorem addContributions_eq_foldlM (around : Option (Surroundings α)) (type : WeightedType)
    (minimum maximum : α) (aggregation : Option SNorm) (as : List (Activated α)) (sums : α × α) :
    addContributions around type minimum maximum aggregation sums as = as.foldlM (fun sums a => do
      let z ← contribution around type minimum maximum a
      let wz ← implied a.implication a.degree z
      let weighted ← Aggregated.accumulate aggregation sums.1 wz
      let weights ← Aggregated.accumulate aggregation sums.2 a.degree
      return (weighted, weights)) sums := by
  induction as generalizing sums with
  | nil => rfl
  | cons a as ih =>
    simp only [addContributions, List.foldlM_cons, ih, bind_assoc, pure_bind]

theorem escapesWhen_weightedSums (around : Option (Surroundings α)) (type : WeightedType)
    (s : Aggregated α) (minimum maximum : α) :
    EscapesWhen (weightedSums around type s minimum maximum)
      (WeightedSumsFaults around type s minimum maximum) := by
  -- the invariant of the loop is the pair of sums that the terms before have reached
  unfold weightedSums WeightedSumsFaults
  simp only [addContributions_eq_foldlM]
  refine .foldlM (fun sums a => ?_) s.terms (0.0, 0.0)
  refine EscapesWhen.congr ((escapesWhen_contribution around _ minimum maximum a).bind fun z =>
    (EscapesWhen.liftM fun f => implied_eq_error_iff).bind fun wz =>
      (EscapesWhen.liftM fun f => Aggregated.accumulate_eq_error_iff).bind fun weighted =>
        (EscapesWhen.liftM fun f => Aggregated.accumulate_eq_error_iff).bind_ok) fun f => ?_
  simp only [AdditionFaults, liftM_eq_ok_iff]

/-! ## §3 Defuzzifiers -/

/-- A defuzzifier faults at a sample, at the greatest of no samples, at a weighted sum or at the average. -/
def Defuzzifier.Faults (around : Option (Surroundings α)) (d : Defuzzifier) (s : Aggregated α)
    (minimum maximum : α) (f : Fault) : Prop :=
  s.isEmpty = false ∧
    match d with
    | integral m resolution =>
      (isFinite minimum && isFinite maximum) = true ∧
        (s.SampleFaults around minimum maximum resolution f ∨
          ∃ ss, samples (s.membership around) minimum maximum resolution = .ok ss ∧ m.ReduceFaults ss f)
    | weighted m type =>
      WeightedSumsFaults around type s minimum maximum f ∨
        ∃ sums, weightedSums around type s minimum maximum = .ok sums ∧
          m = .average ∧ negligible sums.2 = false ∧ DivideFaults sums.2 f

theorem Defuzzifier.escapesWhen_defuzzify (around : Option (Surroundings α)) (d : Defuzzifier)
    (s : Aggregated α) (minimum maximum : α) :
    EscapesWhen (d.defuzzify around (.aggregated s) minimum maximum)
      (d.Faults around s minimum maximum) := by
  have houtput : isEmptyOutput (.aggregated s) = s.isEmpty := rfl
  cases d with
  | integral m resolution =>
    unfold defuzzify
    rw [houtput]
    -- an empty set and a range that cannot be sampled are settled before anything is computed
    cases hempty : s.isEmpty with
    | true => exact (EscapesWhen.ok nan).congr fun f => by simp [Faults, hempty]
    | false =>
      cases hfinite : isFinite minimum && isFinite maximum with
      | false => exact (EscapesWhen.ok nan).congr fun f => by simp [Faults, hfinite]
      | true =>
        refine EscapesWhen.congr ((s.escapesWhen_samples around minimum maximum resolution).bind
          fun ss => .liftM fun f => IntegralMethod.reduce_eq_error_iff) fun f => ?_
        simp only [Faults, hempty, hfinite, true_and]
  | weighted m type =>
    cases hempty : s.isEmpty with
    | true =>
      have hnan : defuzzify (weighted m type) around (.aggregated s) minimum maximum = .ok nan :=
        if_pos hempty
      rw [hnan]
      exact (EscapesWhen.ok nan).congr fun f => by simp [Faults, hempty]
    | false =>
      have hsums := escapesWhen_weightedSums around type s minimum maximum
      have hfull : ¬s.isEmpty = true := by simp [hempty]
      cases m with
      | sum =>
        have hsum : defuzzify (weighted .sum type) around (.aggregated s) minimum maximum =
            weightedSums around type s minimum maximum >>= fun sums => .ok sums.1 := if_neg hfull
        rw [hsum]
        exact hsums.bind_ok.congr fun f => by simp [Faults, hempty]
      | average =>
        have haverage : defuzzify (weighted .average type) around (.aggregated s) minimum maximum =
            weightedSums around type s minimum maximum >>= fun sums =>
              if negligible sums.2 then .ok nan else divide sums.1 sums.2 := if_neg hfull
        rw [haverage]
        refine EscapesWhen.congr (hsums.bind fun sums =>
          EscapesWhen.ite (.ok nan) (.liftM fun f => divide_eq_error_iff)) fun f => ?_
        simp [Faults, hempty]

/-- An output that rules reached faults where its defuzzifier does. -/
def OutputVariable.Faults (around : Option (Surroundings α)) (v : OutputVariable α) (f : Fault) : Prop :=
  v.isActive = true ∧
    ∃ d, v.defuzzifier = some d ∧ d.Faults around v.prepare.fuzzyOutput v.minimum v.maximum f

theorem OutputVariable.escapesWhen_rawValue (around : Option (Surroundings α)) (v : OutputVariable α) :
    EscapesWhen (v.prepare.rawValue around) (v.Faults around) := by
  have hactive : v.prepare.isActive = v.isActive := rfl
  have hdefuzzifier : v.prepare.defuzzifier = v.defuzzifier := rfl
  unfold rawValue
  rw [hactive, hdefuzzifier]
  cases hv : v.isActive with
  | false => exact (EscapesWhen.ok _).congr fun f => by simp [Faults, hv]
  | true =>
    cases hd : v.defuzzifier with
    -- a missing defuzzifier tells something about the model
    | none => exact (EscapesWhen.evaluation _).congr fun f => by simp [Faults, hd]
    | some d =>
      exact (d.escapesWhen_defuzzify around v.prepare.fuzzyOutput v.minimum v.maximum).congr
        fun f => by simp [Faults, hv, hd]

end FuzzyInference
