import FuzzyInference.Proofs.Firing
import Mathlib.Data.List.Perm.Basic

/-!
# Blocks whose rules are reordered

Some activation methods look at the rules of a block one by one, or at all of them together, and never at
their order. Under such a method, a block with its rules in another order adds the same activated terms in
another order. The blocks after it compute the same as before where they find the same degrees.

The plan of this module:

* computations that agree: both have a value, or both are refused;
* activation methods without an order, which select by degrees alone;
* what a block adds, from its rules as such and not from their places;
* blocks before and after others;
* lists of which a beginning is reordered.

## Main statements

* `Activation.select_map`, `Activation.select_perm`: what methods select
* `RuleBlock.agree_effect`: a block with its rules in another order
* `Engine.effects_congr`: blocks that find the same degrees
-/

namespace FuzzyInference

open Scalar Checked

/-! ## §1 Computations that agree -/

namespace Checked

variable {ε α β γ δ : Type} {R : α → β → Prop} {S : γ → δ → Prop}

/-- Both computations have values, which are related, or both are refused, for whatever reasons. -/
inductive Agree (R : α → β → Prop) : Except ε α → Except ε β → Prop
  | ok {a : α} {b : β} (h : R a b) : Agree R (.ok a) (.ok b)
  | error (e f : ε) : Agree R (.error e) (.error f)

theorem Agree.of_eq {T : α → α → Prop} (hT : ∀ a, T a a) {x y : Except ε α} (h : x = y) : Agree T x y := by
  subst h
  cases x with
  | ok a => exact .ok (hT a)
  | error e => exact .error e e

theorem Agree.bind {x : Except ε α} {y : Except ε β} (h : Agree R x y) {f : α → Except ε γ}
    {g : β → Except ε δ} (hfg : ∀ a b, x = .ok a → y = .ok b → R a b → Agree S (f a) (g b)) :
    Agree S (x >>= f) (y >>= g) := by
  cases h with
  | ok h => exact hfg _ _ rfl rfl h
  | error e f => exact .error e f

theorem Agree.map {x : Except ε α} {y : Except ε β} (h : Agree R x y) {f : α → γ} {g : β → δ}
    (hfg : ∀ a b, R a b → S (f a) (g b)) : Agree S (f <$> x) (g <$> y) := by
  cases h with
  | ok h => exact .ok (hfg _ _ h)
  | error e f => exact .error e f

/-- What agrees after a function is applied agrees before. -/
theorem Agree.of_map {x : Except ε α} {y : Except ε β} {f : α → γ} {g : β → δ}
    (h : Agree S (f <$> x) (g <$> y)) : Agree (fun a b => S (f a) (g b)) x y := by
  cases x with
  | ok a =>
    cases y with
    | ok b =>
      cases h with
      | ok h => exact .ok h
    | error e => cases h
  | error e =>
    cases y with
    | ok b => cases h
    | error f => exact .error e f

/-- A list of computations in another order has the same values in that order. -/
theorem exists_perm_of_mapM {f : α → Except ε β} {xs ys : List α} (h : xs.Perm ys) {as : List β}
    (has : xs.mapM f = .ok as) : ∃ bs, ys.mapM f = .ok bs ∧ as.Perm bs := by
  obtain ⟨bs, hbs, hperm⟩ := List.perm_comp_forall₂ h.symm ((mapM_eq_ok_iff f xs as).1 has)
  exact ⟨bs, (mapM_eq_ok_iff f ys bs).2 hbs, hperm.symm⟩

/-- A list of computations in another order is refused together with it. -/
theorem agree_mapM (f : α → Except ε β) {xs ys : List α} (h : xs.Perm ys) :
    Agree List.Perm (xs.mapM f) (ys.mapM f) := by
  cases hxs : xs.mapM f with
  | ok as =>
    obtain ⟨bs, hbs, hperm⟩ := exists_perm_of_mapM h hxs
    rw [hbs]
    exact .ok hperm
  | error e =>
    cases hys : ys.mapM f with
    | error e' => exact .error e e'
    | ok bs =>
      obtain ⟨as, has, -⟩ := exists_perm_of_mapM h.symm hys
      cases hxs.symm.trans has

/-- A function applied to every value of a list of computations. -/
theorem mapM_map_eq (f : α → Except ε β) (g : β → γ) (xs : List α) :
    xs.mapM (fun x => g <$> f x) = List.map g <$> xs.mapM f := by
  induction xs with
  | nil => rfl
  | cons x xs ih =>
    rw [List.mapM_cons, List.mapM_cons, ih]
    cases f x with
    | error e => rfl
    | ok y => cases xs.mapM f <;> rfl

end Checked

/-! ## §2 Methods without an order -/

namespace Activation

variable {α ι κ : Type} [Scalar α]

/-- The method does not look at the order of rules. -/
def isUnordered : Activation α → Bool
  | general | threshold .. | proportional => true
  | first .. | last .. | highest .. | lowest .. => false

theorem insertByKey_map (key : α × κ → α) (g : α × ι → α × κ) (p : α × ι) (ps : List (α × ι)) :
    insertByKey key (g p) (ps.map g) = (insertByKey (key ∘ g) p ps).map g := by
  induction ps with
  | nil => rfl
  | cons q ps ih =>
    rw [List.map_cons, insertByKey, insertByKey, Function.comp_apply, Function.comp_apply, ih]
    by_cases h : key (g q) < key (g p)
    · rw [if_pos h, if_pos h, List.map_cons]
    · rw [if_neg h, if_neg h, List.map_cons, List.map_cons]

theorem sortByKey_map (key : α × κ → α) (g : α × ι → α × κ) (ps : List (α × ι)) :
    sortByKey key (ps.map g) = (sortByKey (key ∘ g) ps).map g := by
  induction ps with
  | nil => rfl
  | cons p ps ih =>
    change insertByKey key (g p) (sortByKey key (ps.map g)) = _
    rw [ih, insertByKey_map]
    rfl

omit [Scalar α] in
theorem takeSlice_map (count : Int) (g : α × ι → α × κ) (ps : List (α × ι)) :
    takeSlice count (ps.map g) = (takeSlice count ps).map g := by
  rw [takeSlice, takeSlice, List.length_map, List.map_take]

theorem sumOfDegrees_map (g : ι → κ) (ps : List (α × ι)) :
    sumOfDegrees (ps.map (Prod.map id g)) = sumOfDegrees ps :=
  List.foldl_map

/-- A method does not look at what the degrees are attached to. -/
theorem select_map (m : Activation α) (g : ι → κ) (ps : List (α × ι)) :
    m.select (ps.map (Prod.map id g)) = (m.select ps).map (Prod.map id g) := by
  have hfilter : ∀ p : α × κ → Bool,
      (ps.map (Prod.map id g)).filter p = (ps.filter (p ∘ Prod.map id g)).map (Prod.map id g) :=
    fun p => List.filter_map
  cases m with
  | general => exact hfilter fires
  | first count bar =>
    simp only [select, hfilter, List.map_take]
    rfl
  | last count bar =>
    simp only [select, ← List.map_reverse, List.filter_map, List.map_take]
    rfl
  | highest count =>
    simp only [select, hfilter, sortByKey_map, takeSlice_map]
    rfl
  | lowest count =>
    simp only [select, hfilter, sortByKey_map, takeSlice_map]
    rfl
  | threshold comparison value => exact hfilter _
  | proportional =>
    have hfires : (ps.map (Prod.map id g)).filter fires = (ps.filter fires).map (Prod.map id g) :=
      hfilter fires
    rw [select_proportional, select_proportional, hfires, sumOfDegrees_map]
    split
    · rw [List.map_map, List.map_map]
      rfl
    · rfl

/-- Where sums do not depend on an order, neither does what such a method selects. -/
theorem select_perm {m : Activation α} (hm : m.isUnordered = true)
    (hadd : ∀ a b c : α, a + b + c = a + c + b) {ps qs : List (α × ι)} (h : ps.Perm qs) :
    (m.select ps).Perm (m.select qs) := by
  cases m with
  | general => exact h.filter _
  | threshold comparison value => exact h.filter _
  | proportional =>
    have hfilter : (ps.filter fires).Perm (qs.filter fires) := h.filter _
    have hsum : sumOfDegrees (ps.filter fires) = sumOfDegrees (qs.filter fires) :=
      hfilter.foldl_eq' (fun p _ q _ acc => hadd acc p.1 q.1) _
    rw [select_proportional, select_proportional, hsum]
    split
    · exact hfilter.map _
    · exact .refl _
  | first count bar => cases hm
  | last count bar => cases hm
  | highest count => cases hm
  | lowest count => cases hm

end Activation

/-! ## §3 What rules add, in their order -/

namespace RuleBlock

variable {α : Type} [Scalar α]

/-- The degrees of the active rules, each with the rule itself. -/
def ruleDegrees (vs : Variables α) (b : RuleBlock α) : Except Error (List (α × Rule α)) :=
  (b.rules.filter isActive).mapM fun r =>
    (fun d => (d, r)) <$> r.weightedDegree vs b.conjunction b.disjunction

/-- The degrees of the active rules, each with the rule and its place. -/
def placedDegrees (vs : Variables α) (b : RuleBlock α) : Except Error (List (α × (Rule α × Nat))) :=
  (b.rules.zipIdx.filter fun p => isActive p.1).mapM fun p =>
    (fun d => (d, p)) <$> p.1.weightedDegree vs b.conjunction b.disjunction

theorem degrees_eq (vs : Variables α) (b : RuleBlock α) :
    b.degrees vs = List.map (Prod.map id Prod.snd) <$> b.placedDegrees vs := by
  rw [placedDegrees, ← mapM_map_eq]
  refine mapM_congr fun p _ => ?_
  cases p.1.weightedDegree vs b.conjunction b.disjunction <;> rfl

theorem ruleDegrees_eq (vs : Variables α) (b : RuleBlock α) :
    b.ruleDegrees vs = List.map (Prod.map id Prod.fst) <$> b.placedDegrees vs := by
  have hactive : b.rules.filter isActive = (b.rules.zipIdx.filter fun p => isActive p.1).map Prod.fst := by
    conv_lhs => rw [← List.zipIdx_map_fst 0 b.rules, List.filter_map]
    rfl
  rw [placedDegrees, ← mapM_map_eq, ruleDegrees, hactive, List.mapM_map]
  refine mapM_congr fun p _ => ?_
  change (fun d => (d, p.1)) <$> p.1.weightedDegree vs b.conjunction b.disjunction = _
  cases p.1.weightedDegree vs b.conjunction b.disjunction <;> rfl

/-- A rule that comes with a place stands there. -/
theorem getElem?_of_mem_placedDegrees {vs : Variables α} {b : RuleBlock α}
    {ps : List (α × (Rule α × Nat))} (h : b.placedDegrees vs = .ok ps) {d : α} {p : Rule α × Nat}
    (hp : (d, p) ∈ ps) : b.rules[p.2]? = some p.1 := by
  obtain ⟨q, hq, hqp⟩ := exists_of_mem_mapM h hp
  obtain ⟨c, -, hc⟩ := map_eq_ok_iff.1 hqp
  cases hc
  exact List.mk_mem_zipIdx_iff_getElem?.1 (List.mem_filter.1 hq).1

/-- What the rules that fire add, from the rules as such. -/
def ruleTrail (vs : Variables α) (b : RuleBlock α) : Except Error (Trail α) := do
  let ps ← b.ruleDegrees vs
  List.flatten <$> ((b.method.select ps).filter Activation.fires).mapM fun p =>
    Rule.additions vs b.implication p.1 p.2.conclusions

/-- An enabled block adds what its rules add, wherever they stand. -/
theorem fst_effect (vs : Variables α) {b : RuleBlock α} (henabled : b.enabled = true) :
    Prod.fst <$> b.effect vs = b.ruleTrail vs := by
  have heffect : Prod.fst <$> b.effect vs =
      b.degrees vs >>= fun ds => b.allAdditions vs (b.fired ds) := by
    rw [effect, if_pos henabled]
    cases b.degrees vs with
    | error e => rfl
    | ok ds =>
      rw [ok_bind, ok_bind]
      cases b.allAdditions vs (b.fired ds) <;> rfl
  rw [heffect, ruleTrail, degrees_eq, ruleDegrees_eq]
  cases hps : b.placedDegrees vs with
  | error e => rfl
  | ok ps =>
    rw [map_ok, map_ok, ok_bind, ok_bind, allAdditions, fired, Activation.select_map, Activation.select_map,
      List.filter_map, List.filter_map, List.mapM_map, List.mapM_map]
    congr 1
    refine mapM_congr fun q hq => ?_
    obtain ⟨d, hd, -⟩ := Activation.exists_of_mem_select (List.mem_filter.1 hq).1
    -- the place leads back to the rule
    have hrule : b.rules[q.2.2]? = some q.2.1 := getElem?_of_mem_placedDegrees hps hd
    change b.additionsOf vs (q.1, q.2.2) = _
    simp only [additionsOf, hrule]
    rfl

/-- A block with its rules in another order adds the same in another order. -/
theorem agree_effect (hadd : ∀ a b c : α, a + b + c = a + c + b) (vs : Variables α) {b : RuleBlock α}
    {rs : List (Rule α)} (hperm : b.rules.Perm rs) (hmethod : b.method.isUnordered = true) :
    Agree (fun p q => p.1.Perm q.1) (b.effect vs) ({ b with rules := rs }.effect vs) := by
  by_cases henabled : b.enabled = true
  · have hother : Prod.fst <$> ({ b with rules := rs } : RuleBlock α).effect vs =
        ({ b with rules := rs } : RuleBlock α).ruleTrail vs := fst_effect vs henabled
    refine .of_map ?_
    rw [fst_effect vs henabled, hother]
    refine Agree.bind (agree_mapM _ (hperm.filter _)) fun ps qs _ _ h => ?_
    have hfired := (Activation.select_perm hmethod hadd h).filter Activation.fires
    exact (agree_mapM _ hfired).map fun _ _ h => h.flatten
  · refine .of_map (.of_eq (fun _ => .refl _) ?_)
    simp [effect, henabled]

end RuleBlock

/-! ## §4 Blocks before and after others -/

namespace Engine

variable {α : Type} [Scalar α]

theorem effects_append (vs : Variables α) (bs cs : List (RuleBlock α)) :
    effects vs (bs ++ cs) = (do
      let p ← effects vs bs
      let q ← effects (vs.receive p.1) cs
      return (p.1 ++ q.1, p.2 ++ q.2)) := by
  induction bs generalizing vs with
  | nil =>
    simp only [List.nil_append, effects, ok_bind, Variables.receive_nil]
    cases effects vs cs <;> rfl
  | cons b bs ih =>
    rw [List.cons_append, effects, effects]
    rcases b.effect vs with e | ⟨t, b'⟩
    · rfl
    · simp only [ok_bind, ih]
      rcases effects (vs.receive t) bs with e | ⟨u, bs'⟩
      · rfl
      · simp only [ok_bind, pure_eq_ok, Variables.receive_receive]
        cases effects (vs.receive (t ++ u)) cs with
        | error e => rfl
        | ok q => simp

/-- Every block is left in its place. -/
theorem length_effects {vs : Variables α} {bs : List (RuleBlock α)} {p : Trail α × List (RuleBlock α)}
    (h : effects vs bs = .ok p) : p.2.length = bs.length := by
  induction bs generalizing vs p with
  | nil =>
    cases h
    rfl
  | cons b bs ih =>
    obtain ⟨q, -, h⟩ := bind_eq_ok_iff.1 h
    obtain ⟨q', hq', h⟩ := bind_eq_ok_iff.1 h
    cases h
    exact congrArg (· + 1) (ih hq')

end Engine

/-- Of the variables, a block reads the degrees of propositions, and whatever a trail leaves as it is. -/
theorem RuleBlock.effect_congr {α : Type} [Scalar α] {vs : Variables α} {t u : Trail α}
    (h : (vs.receive t).degreeOf = (vs.receive u).degreeOf) (b : RuleBlock α) :
    b.effect (vs.receive t) = b.effect (vs.receive u) := by
  have hdegrees : b.degrees (vs.receive t) = b.degrees (vs.receive u) := by
    refine mapM_congr fun p _ => ?_
    simp only [Rule.weightedDegree, Rule.antecedentDegree, h]
  simp only [effect, hdegrees, allAdditions_receive]

/-- Blocks after different trails do the same where every proposition has the same degree, also after what
they add themselves. -/
theorem Engine.effects_congr {α : Type} [Scalar α] {vs : Variables α} {t u : Trail α}
    (h : ∀ w, (vs.receive (t ++ w)).degreeOf = (vs.receive (u ++ w)).degreeOf) (bs : List (RuleBlock α)) :
    effects (vs.receive t) bs = effects (vs.receive u) bs := by
  induction bs generalizing t u with
  | nil => rfl
  | cons b bs ih =>
    have hnow : (vs.receive t).degreeOf = (vs.receive u).degreeOf := by simpa using h []
    have hlater : ∀ w, effects (vs.receive (t ++ w)) bs = effects (vs.receive (u ++ w)) bs := by
      intro w
      refine ih fun w' => ?_
      simpa using h (w ++ w')
    simp only [effects, RuleBlock.effect_congr hnow, Variables.receive_receive, hlater]

/-- Propositions have the same degrees after different trails where every term of an output is activated to
the same degree. -/
theorem Variables.degreeOf_congr {α : Type} [Scalar α] {vs : Variables α} {t u : Trail α}
    (h : ∀ v ∈ vs.outputs ++ vs.removedOutputs, ∀ id,
      (v.receive (t.on v.id)).fuzzyOutput.activationDegree id =
        (v.receive (u.on v.id)).fuzzyOutput.activationDegree id) :
    (vs.receive t).degreeOf = (vs.receive u).degreeOf := by
  have hreached : ∀ p k, (vs.receive t).reached p k = (vs.receive u).reached p k := by
    intro p k
    unfold reached
    rw [output?_receive, output?_receive, input?_receive, input?_receive, surroundings_receive,
      surroundings_receive]
    cases hv : vs.output? p.subject.id with
    -- a proposition about an input does not see trails
    | none => rfl
    | some v =>
      have hsame := h v (List.mem_of_find?_eq_some hv) k.id
      rw [id_of_output? hv] at hsame
      simp only [Option.map_some, hsame]
  funext p
  simp only [degreeOf, isEnabled_receive, hreached]

/-! ## §5 Lists of which a beginning is reordered -/

section Beginnings

variable {β γ : Type} {P : β → Prop} {Q : γ → Prop} {xs ys : List β}

/-- The lists differ in the order of a beginning, of whose items `P` holds. -/
def Reordered (P : β → Prop) (xs ys : List β) : Prop :=
  ∃ us vs rest, xs = us ++ rest ∧ ys = vs ++ rest ∧ us.Perm vs ∧ ∀ a ∈ us, P a

namespace Reordered

theorem refl (xs : List β) : Reordered P xs xs := ⟨[], [], xs, rfl, rfl, .nil, nofun⟩

theorem of_perm (h : xs.Perm ys) (hxs : ∀ a ∈ xs, P a) : Reordered P xs ys :=
  ⟨xs, ys, [], (List.append_nil xs).symm, (List.append_nil ys).symm, h, hxs⟩

theorem append_right (h : Reordered P xs ys) (zs : List β) : Reordered P (xs ++ zs) (ys ++ zs) := by
  obtain ⟨us, vs, rest, rfl, rfl, hperm, hP⟩ := h
  exact ⟨us, vs, rest ++ zs, List.append_assoc .., List.append_assoc .., hperm, hP⟩

theorem append_left (h : Reordered P xs ys) {zs : List β} (hzs : ∀ a ∈ zs, P a) :
    Reordered P (zs ++ xs) (zs ++ ys) := by
  obtain ⟨us, vs, rest, rfl, rfl, hperm, hP⟩ := h
  refine ⟨zs ++ us, zs ++ vs, rest, (List.append_assoc ..).symm, (List.append_assoc ..).symm,
    hperm.append_left zs, fun a ha => ?_⟩
  exact (List.mem_append.1 ha).elim (hzs a) (hP a)

theorem filter (h : Reordered P xs ys) (p : β → Bool) : Reordered P (xs.filter p) (ys.filter p) := by
  obtain ⟨us, vs, rest, rfl, rfl, hperm, hP⟩ := h
  exact ⟨us.filter p, vs.filter p, rest.filter p, List.filter_append .., List.filter_append ..,
    hperm.filter p, fun a ha => hP a (List.mem_filter.1 ha).1⟩

theorem map (h : Reordered P xs ys) {f : β → γ} (hf : ∀ a, P a → Q (f a)) :
    Reordered Q (xs.map f) (ys.map f) := by
  obtain ⟨us, vs, rest, rfl, rfl, hperm, hP⟩ := h
  refine ⟨us.map f, vs.map f, rest.map f, List.map_append, List.map_append, hperm.map f, fun b hb => ?_⟩
  obtain ⟨a, ha, rfl⟩ := List.mem_map.1 hb
  exact hf a (hP a ha)

theorem perm (h : Reordered P xs ys) : xs.Perm ys := by
  obtain ⟨us, vs, rest, rfl, rfl, hperm, -⟩ := h
  exact hperm.append_right rest

end Reordered

end Beginnings

end FuzzyInference
