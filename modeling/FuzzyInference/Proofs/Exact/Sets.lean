import FuzzyInference.Proofs.Cycle
import FuzzyInference.Proofs.Exact.Norms
import FuzzyInference.Proofs.Faults.Sets
import FuzzyInference.Proofs.Reordering

/-!
# Fuzzy outputs whose activated terms are reordered

In exact arithmetic the order in which activated terms are collected cannot be seen from degrees and
memberships: every S-norm is commutative and associative on degrees. It can be seen where no S-norm joins
the collection, since then the last membership counts, and by a weighted defuzzifier, which looks at the
first activated term.

The plan of this module:

* accumulated degrees and joined memberships, of which a beginning is reordered;
* sampling at finite points, and the crisp value of an integral defuzzifier;
* outputs that cannot be told apart.

## Main statements

* `Aggregated.activationDegree_congr`, `Aggregated.membership_congr`: reordered activated terms
* `Defuzzifier.defuzzify_integral_congr`: what an integral defuzzifier sees
* `OutputVariable.indistinct_receive`: outputs that received reordered activated terms
-/

namespace FuzzyInference

open Scalar Exact Checked

/-! ## §1 Reordered activated terms -/

namespace Aggregated

section Sequences

variable {α : Type} [Scalar α]

theorem accumulateAll_append (aggregation : Option SNorm) (before : α) (ds es : List α) :
    accumulateAll aggregation before (ds ++ es) =
      accumulateAll aggregation before ds >>= fun after => accumulateAll aggregation after es := by
  simp only [accumulateAll_eq_foldlM, List.foldlM_append]

/-- Degrees without an aggregation are accumulated by the plain sum. -/
theorem accumulateAll_none (before : α) (ds : List α) :
    accumulateAll none before ds = accumulateAll (some .unboundedSum) before ds := by
  rw [accumulateAll_eq_foldlM, accumulateAll_eq_foldlM]
  rfl

theorem joinDegrees_append (aggregation : Option SNorm) (around : Option (Surroundings α)) (x before : α)
    (as bs : List (Activated α)) :
    joinDegrees aggregation around x before (as ++ bs) =
      joinDegrees aggregation around x before as >>= fun after =>
        joinDegrees aggregation around x after bs := by
  simp only [joinDegrees_eq_foldlM, List.foldlM_append]

/-- Memberships that all have a value are joined like degrees that are accumulated. -/
theorem joinDegrees_of_mapM {s : SNorm} {around : Option (Surroundings α)} {x : α}
    {as : List (Activated α)} {ys : List α} (h : as.mapM (fun a => a.membership around x) = .ok ys)
    (before : α) :
    joinDegrees (some s) around x before as = liftM (accumulateAll (some s) before ys) := by
  induction as generalizing ys before with
  | nil =>
    cases h
    rfl
  | cons a as ih =>
    rw [List.mapM_cons] at h
    obtain ⟨y, hy, h⟩ := bind_eq_ok_iff.1 h
    obtain ⟨zs, hzs, h⟩ := bind_eq_ok_iff.1 h
    cases h
    rw [joinDegrees, accumulateAll, hy, ok_bind]
    change (liftM (s.compute before y) >>= fun after => joinDegrees (some s) around x after as) =
      liftM (s.compute before y >>= fun after => accumulateAll (some s) after zs)
    cases s.compute before y with
    | error f => rfl
    | ok after => exact ih hzs after

end Sequences

/-- Degrees of the domain of a norm are accumulated within it. -/
theorem accumulateAll_finite (s : SNorm) (a : s.domain) (ds : List s.domain) :
    accumulateAll (some s) (finite a) (ds.map fun d => finite d.1) = .ok (finite (ds.foldl s.op a).1) := by
  induction ds generalizing a with
  | nil => rfl
  | cons d ds ih =>
    rw [List.map_cons, accumulateAll, List.foldl_cons]
    change (s.compute (finite a) (finite d) >>= fun after => accumulateAll (some s) after _) = _
    rw [SNorm.compute_finite a.2 d.2, ok_bind]
    exact ih (s.op a d)

/-- Degrees accumulate to the same in every order. -/
theorem accumulateAll_perm (aggregation : Option SNorm) {xs ys : List Exact} (h : xs.Perm ys)
    (hxs : ∀ x ∈ xs, x.IsDegree) :
    accumulateAll aggregation 0.0 xs = accumulateAll aggregation 0.0 ys := by
  -- each list is one of numbers that the norm joins
  have hdomain : ∀ (s : SNorm) (zs : List Exact), (∀ z ∈ zs, z.IsDegree) →
      ∃ ds : List s.domain, zs = ds.map fun d => finite d.1 := by
    intro s zs hzs
    induction zs with
    | nil => exact ⟨[], rfl⟩
    | cons z zs ih =>
      obtain ⟨x, hx, rfl⟩ := hzs z List.mem_cons_self
      obtain ⟨ds, rfl⟩ := ih fun w hw => hzs w (List.mem_cons_of_mem _ hw)
      exact ⟨⟨x, s.mem_domain hx⟩ :: ds, rfl⟩
  have hsome : ∀ s, accumulateAll (some s) 0.0 xs = accumulateAll (some s) 0.0 ys := by
    intro s
    have hinjective : Function.Injective fun d : s.domain => finite d.1 :=
      fun d e hde => Subtype.ext (finite_inj.1 hde)
    have hzero : (0 : ℝ) ∈ s.domain := s.mem_domain ⟨le_refl 0, zero_le_one⟩
    obtain ⟨ds, rfl⟩ := hdomain s xs hxs
    obtain ⟨es, rfl⟩ := hdomain s ys fun y hy => hxs y (h.mem_iff.2 hy)
    -- the norm is an operation on its domain, where it is commutative and associative
    have hperm : ds.Perm es := (List.map_perm_map_iff hinjective).1 h
    rw [literal_zero, accumulateAll_finite s ⟨0, hzero⟩, accumulateAll_finite s ⟨0, hzero⟩, hperm.foldl_eq]
  cases aggregation with
  | none => rw [accumulateAll_none, accumulateAll_none, hsome]
  | some s => exact hsome s

theorem accumulateAll_reordered (aggregation : Option SNorm) {xs ys : List Exact}
    (h : Reordered IsDegree xs ys) :
    accumulateAll aggregation 0.0 xs = accumulateAll aggregation 0.0 ys := by
  obtain ⟨us, vs, rest, rfl, rfl, hperm, hus⟩ := h
  rw [accumulateAll_append, accumulateAll_append, accumulateAll_perm aggregation hperm hus]

/-- The activated terms of the set have degrees as memberships at a crisp value. -/
def HasDegreesAt (around : Option (Surroundings Exact)) (x : Exact) (s : Aggregated Exact) : Prop :=
  ∀ a ∈ s.terms, ∃ y, a.term.membership around x = .ok y ∧ y.IsDegree

variable (s s' : Aggregated Exact)

/-- Reordered activated terms give every term the same degree. -/
theorem activationDegree_congr (haggregation : s'.aggregation = s.aggregation)
    (h : Reordered (fun a => a.degree.IsDegree) s.terms s'.terms) (id : Nat) :
    s'.activationDegree id = s.activationDegree id := by
  have hdegrees : Reordered IsDegree (s.degreesOf id) (s'.degreesOf id) := (h.filter _).map fun _ ha => ha
  rw [activationDegree, activationDegree, haggregation, accumulateAll_reordered s.aggregation hdegrees]

/-- Reordered activated terms that an S-norm joins have the same membership where theirs are degrees. -/
theorem membership_congr (haggregation : s'.aggregation = s.aggregation)
    (hsome : s.aggregation.isSome = true)
    (h : Reordered (fun a => a.degree.IsDegree) s.terms s'.terms) {around : Option (Surroundings Exact)}
    {x : Exact} (hx : s.HasDegreesAt around x) : s'.membership around x = s.membership around x := by
  obtain ⟨n, hn⟩ := Option.isSome_iff_exists.1 hsome
  obtain ⟨us, vs, rest, hs, hs', hperm, hdegrees⟩ := h
  -- the memberships of the beginning are degrees
  have hmembership : ∀ a ∈ us, ∃ y, a.membership around x = .ok y ∧ y.IsDegree := by
    intro a ha
    obtain ⟨y, hy, hydegree⟩ := hx a (by simp [hs, ha])
    obtain ⟨z, hz, hzdegree⟩ := exists_implied a.implication (hdegrees a ha) hydegree
    refine ⟨z, ?_, hzdegree⟩
    rw [Activated.membership, hy, ok_bind, hz]
    rfl
  obtain ⟨ys, hys, hysdegree⟩ := exists_mapM_of_forall hmembership
  obtain ⟨zs, hzs, hyszs⟩ := exists_perm_of_mapM hperm hys
  have hbeginning : joinDegrees (some n) around x 0.0 us = joinDegrees (some n) around x 0.0 vs := by
    rw [joinDegrees_of_mapM hys, joinDegrees_of_mapM hzs, accumulateAll_perm (some n) hyszs hysdegree]
  rw [membership, membership, haggregation, hn, hs, hs', joinDegrees_append, joinDegrees_append, hbeginning]

end Aggregated

/-! ## §2 Integral defuzzifiers -/

/-- The points of a grid over a finite range are finite. -/
theorem exists_finite_of_mem_grid {lower upper : ℝ} {resolution : Int} {xs : List Exact}
    (h : grid (finite lower) (finite upper) resolution = .ok xs) {x : Exact} (hx : x ∈ xs) :
    ∃ r, x = finite r := by
  unfold grid at h
  rw [sampleCount_eq, ok_bind] at h
  obtain ⟨dx, hdx, h⟩ := bind_eq_ok_iff.1 h
  cases h
  obtain ⟨i, -, rfl⟩ := List.mem_map.1 hx
  unfold divide at hdx
  split at hdx
  · cases hdx
  next hne =>
    have hne' : (resolution : ℝ) ≠ 0 := by simpa using hne
    cases hdx
    rw [finite_sub, finite_div hne', literal_half]
    exact ⟨_, rfl⟩

/-- Sampling over a finite range looks at finite points only. -/
theorem samples_congr {f g : Exact → Except Error Exact} (h : ∀ r, f (finite r) = g (finite r))
    (lower upper : ℝ) (resolution : Int) :
    samples f (finite lower) (finite upper) resolution = samples g (finite lower) (finite upper) resolution := by
  unfold samples
  cases hgrid : grid (finite lower) (finite upper) resolution with
  | error e => rfl
  | ok xs =>
    refine mapM_congr fun x hx => ?_
    obtain ⟨r, rfl⟩ := exists_finite_of_mem_grid hgrid hx
    rw [h r]

/-- Integral defuzzifiers tell sets with activated terms apart by their memberships at finite points only. -/
theorem Defuzzifier.defuzzify_integral_congr (s s' : Aggregated Exact)
    {around : Option (Surroundings Exact)} (hempty : s'.isEmpty = s.isEmpty)
    (h : ∀ r, s'.membership around (finite r) = s.membership around (finite r)) (m : IntegralMethod)
    (resolution : Int) (minimum maximum : Exact) :
    (integral m resolution).defuzzify around (.aggregated s') minimum maximum =
      (integral m resolution).defuzzify around (.aggregated s) minimum maximum := by
  have houtput : isEmptyOutput (.aggregated s') = isEmptyOutput (.aggregated s) := hempty
  simp only [defuzzify, houtput]
  by_cases hrange : (isEmptyOutput (.aggregated s) || !(isFinite minimum && isFinite maximum)) = true
  · rw [if_pos hrange, if_pos hrange]
  · rw [if_neg hrange, if_neg hrange]
    simp only [Bool.or_eq_true, Bool.not_eq_true', Bool.and_eq_false_iff, not_or, Bool.not_eq_false] at hrange
    obtain ⟨lower, rfl⟩ := exists_of_isFinite hrange.2.1
    obtain ⟨upper, rfl⟩ := exists_of_isFinite hrange.2.2
    have hsamples := samples_congr (f := (FuzzySet.aggregated s').membership around)
      (g := (FuzzySet.aggregated s).membership around) h lower upper resolution
    rw [hsamples]

/-! ## §3 Outputs that cannot be told apart -/

namespace OutputVariable

/-- The value that the output takes over under an integral defuzzifier, and whether that is refused. -/
noncomputable def crispBy (m : IntegralMethod) (resolution : Int) (around : Option (Surroundings Exact))
    (v : OutputVariable Exact) : Exact × Except Error Unit :=
  let o := { v with defuzzifier := some (.integral m resolution) }.defuzzify around
  (o.1.value, o.2)

/-- Outputs that differ in the order of activated terms, so that rules, an observer of memberships and
integral defuzzifiers cannot tell them apart. Memberships are compared where those of the activated terms
are degrees. -/
structure Indistinct (v w : OutputVariable Exact) : Prop where
  /-- Nothing but the activated terms differs. -/
  frame : w = { v with fuzzyOutput := { v.fuzzyOutput with terms := w.fuzzyOutput.terms } }
  activationDegree : ∀ id, w.fuzzyOutput.activationDegree id = v.fuzzyOutput.activationDegree id
  membership : ∀ around x, v.fuzzyOutput.HasDegreesAt around x →
    w.fuzzyOutput.membership around x = v.fuzzyOutput.membership around x
  crispBy : ∀ m resolution around, (∀ r, v.fuzzyOutput.HasDegreesAt around (finite r)) →
    w.crispBy m resolution around = v.crispBy m resolution around

/-- The membership of an output that received reordered activated terms. -/
theorem membership_receive {v : OutputVariable Exact} (haggregation : v.fuzzyOutput.aggregation.isSome = true)
    {as bs : List (Activated Exact)}
    (h : Reordered (fun a => a.degree.IsDegree) (v.receive as).fuzzyOutput.terms
      (v.receive bs).fuzzyOutput.terms) {around : Option (Surroundings Exact)} {x : Exact}
    (hx : (v.receive as).fuzzyOutput.HasDegreesAt around x) :
    (v.receive bs).fuzzyOutput.membership around x = (v.receive as).fuzzyOutput.membership around x :=
  Aggregated.membership_congr (v.receive as).fuzzyOutput (v.receive bs).fuzzyOutput rfl haggregation h hx

/-- The value that an integral defuzzifier gives the output, before it is brought into the range. -/
noncomputable def rawBy (m : IntegralMethod) (resolution : Int) (around : Option (Surroundings Exact))
    (v : OutputVariable Exact) : Except Error Exact :=
  if v.isActive then
    (Defuzzifier.integral m resolution).defuzzify around (.aggregated v.prepare.fuzzyOutput) v.minimum v.maximum
  else .ok v.prepare.idleValue

theorem crispBy_eq (m : IntegralMethod) (resolution : Int) (around : Option (Surroundings Exact))
    (v : OutputVariable Exact) :
    v.crispBy m resolution around =
      match v.rawBy m resolution around with
      | .error e => (v.value, .error e)
      | .ok x => (v.settleValue x, .ok ()) := by
  let o : OutputVariable Exact := { v with defuzzifier := some (.integral m resolution) }
  have hraw : o.prepare.rawValue around = v.rawBy m resolution around := rfl
  change ((o.defuzzify around).1.value, (o.defuzzify around).2) = _
  cases hvalue : v.rawBy m resolution around with
  | error e =>
    rw [defuzzify_of_error (hraw.trans hvalue)]
    rfl
  | ok x =>
    rw [defuzzify_of_ok (hraw.trans hvalue)]
    rfl

/-- Outputs that differ in their activated terms take over the same value under an integral defuzzifier
where the memberships are the same. -/
theorem crispBy_congr {v : OutputVariable Exact} {as bs : List (Activated Exact)}
    {around : Option (Surroundings Exact)}
    (hempty : (v.receive bs).fuzzyOutput.isEmpty = (v.receive as).fuzzyOutput.isEmpty)
    (h : ∀ r, (v.receive bs).fuzzyOutput.membership around (finite r) =
      (v.receive as).fuzzyOutput.membership around (finite r)) (m : IntegralMethod) (resolution : Int) :
    (v.receive bs).crispBy m resolution around = (v.receive as).crispBy m resolution around := by
  have hdefuzzify := Defuzzifier.defuzzify_integral_congr (v.receive as).prepare.fuzzyOutput
    (v.receive bs).prepare.fuzzyOutput hempty h m resolution v.minimum v.maximum
  have hactive : (v.receive bs).isActive = (v.receive as).isActive :=
    congrArg (fun i => v.enabled && !i) hempty
  have hraw : (v.receive bs).rawBy m resolution around = (v.receive as).rawBy m resolution around := by
    unfold rawBy
    rw [hactive]
    split
    · exact hdefuzzify
    · rfl
  rw [crispBy_eq, crispBy_eq, hraw]
  rfl

/-- Outputs that an S-norm aggregates cannot be told apart after reordered activated terms. -/
theorem indistinct_receive {v : OutputVariable Exact} (haggregation : v.fuzzyOutput.aggregation.isSome = true)
    {as bs : List (Activated Exact)}
    (h : Reordered (fun a => a.degree.IsDegree) (v.receive as).fuzzyOutput.terms
      (v.receive bs).fuzzyOutput.terms) :
    Indistinct (v.receive as) (v.receive bs) where
  frame := rfl
  activationDegree := Aggregated.activationDegree_congr _ _ rfl h
  membership around x hx := membership_receive haggregation h hx
  crispBy m resolution around hx := by
    have hempty : (v.receive bs).fuzzyOutput.isEmpty = (v.receive as).fuzzyOutput.isEmpty :=
      h.perm.symm.isEmpty_eq
    exact crispBy_congr hempty (fun r => membership_receive haggregation h (hx r)) m resolution

end OutputVariable

end FuzzyInference
