import FuzzyInference.Proofs.Exact.Sets

/-!
# The order of rules

Under an activation method without an order, the order in which the rules of a block are declared decides
in which order activated terms are collected, and nothing else. In exact arithmetic, and as long as degrees
lie between zero and one, that cannot be seen from the outputs: neither by the rules of later blocks nor by
integral defuzzifiers.

The plan of this module:

* shares and conclusions of rules that reach degrees;
* blocks in order, of which one has its rules reordered, and the theorem;
* a relay, on which the theorem is read.

## Main statements

* `RuleBlock.isDegree_effect`: what a block adds when its rules reach degrees
* `Engine.agree_effects`: what blocks add when the rules of one of them are reordered
* `Engine.activateBlocks_perm`: what they leave behind then
-/

namespace FuzzyInference

open Scalar Exact Checked

/-! ## §1 Degrees that rules reach -/

namespace Activation

variable {ι : Type}

/-- The sum of degrees is finite and at least as great as each of them. -/
theorem exists_sumOfDegrees {ps : List (Exact × ι)} (hps : ∀ p ∈ ps, p.1.IsDegree) :
    ∃ total, sumOfDegrees ps = finite total ∧ ∀ p ∈ ps, ∀ x, p.1 = finite x → x ≤ total := by
  -- the sum so far only grows
  have hsum : ∀ acc : ℝ, ∃ total, ps.foldl (fun acc p => acc + p.1) (finite acc) = finite total ∧
      acc ≤ total ∧ (0 ≤ acc → ∀ p ∈ ps, ∀ x, p.1 = finite x → x ≤ total) := by
    induction ps with
    | nil => exact fun acc => ⟨acc, rfl, le_refl acc, fun _ => nofun⟩
    | cons p ps ih =>
      intro acc
      obtain ⟨y, ⟨hy0, -⟩, hy⟩ := hps p List.mem_cons_self
      obtain ⟨total, htotal, hle, hmem⟩ := ih (fun q hq => hps q (List.mem_cons_of_mem _ hq)) (acc + y)
      refine ⟨total, ?_, by linarith, fun hacc q hq x hx => ?_⟩
      · rw [List.foldl_cons, hy, finite_add, htotal]
      · rcases List.mem_cons.1 hq with rfl | hq
        · rw [hy, finite_inj] at hx
          linarith
        · exact hmem (by linarith) q hq x hx
  obtain ⟨total, htotal, -, hmem⟩ := hsum 0
  exact ⟨total, by rw [sumOfDegrees, literal_zero, htotal], hmem (le_refl 0)⟩

/-- The share of a degree is a degree. -/
theorem isDegree_share (m : Activation Exact) {ds : List (Exact × ι)} (hds : ∀ p ∈ ds, p.1.IsDegree)
    {d : Exact} {i : ι} (hmem : (d, i) ∈ ds) : (m.share ds d).IsDegree := by
  have hd : d.IsDegree := hds _ hmem
  cases m with
  | proportional =>
    have hpositive : ∀ p ∈ ds.filter fires, p.1.IsDegree := fun p hp => hds p (List.mem_filter.1 hp).1
    obtain ⟨total, htotal, hle⟩ := exists_sumOfDegrees hpositive
    simp only [share, htotal]
    split
    next habove =>
      obtain ⟨hfires, hsum⟩ := Bool.and_eq_true_iff.1 habove
      obtain ⟨x, ⟨hx0, -⟩, rfl⟩ := hd
      -- the degree is one of those whose sum divides it
      have hx : x ≤ total := hle _ (List.mem_filter.2 ⟨hmem, hfires⟩) x rfl
      have htotal0 : 0 < total := by
        rw [literal_zero, above_finite, decide_eq_true_iff] at hsum
        linarith [epsilon_pos]
      rw [finite_div htotal0.ne', isDegree_finite]
      exact ⟨div_nonneg hx0 htotal0.le, (div_le_one htotal0).2 hx⟩
    next => exact hd
  | _ => exact hd

end Activation

/-- What a conclusion adds at a degree is a term activated to a degree. -/
theorem Variables.isDegree_additions {vs : Variables Exact} {implication : Option TNorm} {d : Exact}
    (hd : d.IsDegree) {p : Proposition} {t : Trail Exact} (h : vs.additions implication d p = .ok t) :
    ∀ a ∈ t, a.2.degree.IsDegree := by
  intro a ha
  unfold additions at h
  split at h
  -- a disabled output is left alone
  · cases h
    cases ha
  · obtain ⟨c, hc, hcdegree⟩ := Hedge.exists_applyAll p.hedges hd
    rw [hc] at h
    cases h
    obtain ⟨u, -, rfl⟩ := Option.map_eq_some_iff.1 (Option.mem_toList.1 ha)
    exact hcdegree

theorem Rule.isDegree_additions {vs : Variables Exact} {implication : Option TNorm} {d : Exact}
    (hd : d.IsDegree) {ps : List Proposition} {t : Trail Exact}
    (h : Rule.additions vs implication d ps = .ok t) : ∀ a ∈ t, a.2.degree.IsDegree := by
  intro a ha
  obtain ⟨ts, hts, rfl⟩ := map_eq_ok_iff.1 h
  obtain ⟨u, hu, hau⟩ := List.mem_flatten.1 ha
  obtain ⟨p, -, hp⟩ := exists_of_mem_mapM hts hu
  exact Variables.isDegree_additions hd hp a hau

namespace RuleBlock

/-- The weighted degrees that the active rules of the block reach lie between zero and one. -/
def Bounded (vs : Variables Exact) (b : RuleBlock Exact) : Prop :=
  ∀ r ∈ b.rules, isActive r = true → ∀ d, r.weightedDegree vs b.conjunction b.disjunction = .ok d → d.IsDegree

/-- Weights and antecedents that lie between zero and one are enough for that. -/
theorem bounded_of_antecedents {vs : Variables Exact} {b : RuleBlock Exact}
    (hweights : ∀ r ∈ b.rules, r.weight.IsDegree)
    (hantecedents : ∀ r ∈ b.rules, ∀ d,
      r.antecedentDegree vs b.conjunction b.disjunction = .ok d → d.IsDegree) : b.Bounded vs := by
  intro r hr _ d hd
  unfold Rule.weightedDegree at hd
  split at hd
  -- a rule that is not loaded has no degree
  · obtain ⟨c, hc, hd⟩ := bind_eq_ok_iff.1 hd
    cases hd
    exact (hweights r hr).mul (hantecedents r hr c hc)
  · cases hd

/-- Rules that reach degrees activate terms to degrees. -/
theorem isDegree_effect {vs : Variables Exact} {b : RuleBlock Exact} (hb : b.enabled = true → b.Bounded vs)
    {p : Trail Exact × RuleBlock Exact} (h : b.effect vs = .ok p) : ∀ a ∈ p.1, a.2.degree.IsDegree := by
  intro a ha
  unfold effect at h
  split at h
  next henabled =>
    obtain ⟨ds, hds, h⟩ := bind_eq_ok_iff.1 h
    obtain ⟨t, ht, h⟩ := bind_eq_ok_iff.1 h
    cases h
    have hdegrees : ∀ q ∈ ds, q.1.IsDegree := by
      intro q hq
      obtain ⟨r, hr, hactive, hd⟩ := exists_of_mem_degrees hds hq
      exact hb henabled r (List.mem_of_getElem? hr) hactive q.1 hd
    -- the term was added by a rule that fired with its share
    obtain ⟨ts, hts, rfl⟩ := map_eq_ok_iff.1 ht
    obtain ⟨u, hu, hau⟩ := List.mem_flatten.1 ha
    obtain ⟨q, hq, hadds⟩ := exists_of_mem_mapM hts hu
    obtain ⟨d, hd, hshare⟩ := Activation.exists_of_mem_select (List.mem_filter.1 hq).1
    have hq : q.1.IsDegree := hshare ▸ Activation.isDegree_share b.method hdegrees hd
    unfold additionsOf at hadds
    split at hadds
    · exact Rule.isDegree_additions hq hadds a hau
    · cases hadds
      cases hau
  -- a disabled block adds nothing
  · cases h
    cases ha

end RuleBlock

/-! ## §2 Blocks in order -/

namespace Engine

/-- The rules of every enabled block of the list reach degrees between zero and one when the blocks are
activated in order. -/
def Bounded : Variables Exact → List (RuleBlock Exact) → Prop
  | _, [] => True
  | vs, b :: rest =>
    (b.enabled = true → b.Bounded vs) ∧ ∀ ws c, (b.activate vs).value = .ok (ws, c) → Bounded ws rest

theorem Bounded.of_effect {vs : Variables Exact} {b : RuleBlock Exact} {rest : List (RuleBlock Exact)}
    (h : Bounded vs (b :: rest)) {p : Trail Exact × RuleBlock Exact} (hp : b.effect vs = .ok p) :
    Bounded (vs.receive p.1) rest := by
  refine h.2 (vs.receive p.1) p.2 ?_
  rw [RuleBlock.value_activate, hp]
  rfl

/-- What blocks add whose rules reach degrees; the blocks after them reach degrees as well. -/
theorem Bounded.of_effects {vs : Variables Exact} {bs cs : List (RuleBlock Exact)} (h : Bounded vs (bs ++ cs))
    {p : Trail Exact × List (RuleBlock Exact)} (hp : effects vs bs = .ok p) :
    (∀ a ∈ p.1, a.2.degree.IsDegree) ∧ Bounded (vs.receive p.1) cs := by
  induction bs generalizing vs p with
  | nil =>
    cases hp
    rw [Variables.receive_nil]
    exact ⟨fun a ha => absurd ha List.not_mem_nil, h⟩
  | cons b bs ih =>
    obtain ⟨q, hq, hp⟩ := bind_eq_ok_iff.1 hp
    obtain ⟨q', hq', hp⟩ := bind_eq_ok_iff.1 hp
    cases hp
    -- the blocks after the first one start from what it adds
    obtain ⟨hrest, hbounded⟩ := ih (h.of_effect hq) hq'
    rw [Variables.receive_receive] at hbounded
    refine ⟨fun a ha => ?_, hbounded⟩
    rcases List.mem_append.1 ha with ha | ha
    · exact RuleBlock.isDegree_effect h.1 hq a ha
    · exact hrest a ha

/-- The terms that were activated before lie in the fuzzy outputs with degrees. -/
def Collected (vs : Variables Exact) : Prop :=
  ∀ v ∈ vs.outputs ++ vs.removedOutputs, ∀ a ∈ v.fuzzyOutput.terms, a.degree.IsDegree

/-- An output that receives reordered trails. -/
theorem Collected.reordered {vs : Variables Exact} (h : Collected vs) {t u : Trail Exact}
    (htu : Reordered (fun a => a.2.degree.IsDegree) t u) {v : OutputVariable Exact}
    (hv : v ∈ vs.outputs ++ vs.removedOutputs) :
    Reordered (fun a => a.degree.IsDegree) (v.receive (t.on v.id)).fuzzyOutput.terms
      (v.receive (u.on v.id)).fuzzyOutput.terms := by
  have hon : Reordered (fun a : Activated Exact => a.degree.IsDegree) (t.on v.id) (u.on v.id) :=
    (htu.filter _).map fun _ ha => ha
  exact hon.append_left (h v hv)

/-- After reordered trails every proposition has the same degree. -/
theorem Collected.degreeOf_eq {vs : Variables Exact} (h : Collected vs) {t u : Trail Exact}
    (htu : Reordered (fun a => a.2.degree.IsDegree) t u) :
    (vs.receive t).degreeOf = (vs.receive u).degreeOf :=
  Variables.degreeOf_congr fun v hv id =>
    (Aggregated.activationDegree_congr (v.receive (t.on v.id)).fuzzyOutput
      (v.receive (u.on v.id)).fuzzyOutput rfl (h.reordered htu hv) id).symm

/-- A block with its rules in another order, and blocks after it that keep theirs. -/
theorem agree_effects_cons {vs : Variables Exact} (hvs : Collected vs) {t : Trail Exact}
    (ht : ∀ a ∈ t, a.2.degree.IsDegree) {b : RuleBlock Exact} {rs : List (Rule Exact)}
    (hperm : b.rules.Perm rs) (hmethod : b.method.isUnordered = true)
    (hbounded : b.enabled = true → b.Bounded (vs.receive t)) (after : List (RuleBlock Exact)) :
    Agree (fun p q => Reordered (fun a => a.2.degree.IsDegree) (t ++ p.1) (t ++ q.1) ∧
        ∃ c c' rest, p.2 = c :: rest ∧ q.2 = c' :: rest)
      (effects (vs.receive t) (b :: after)) (effects (vs.receive t) ({ b with rules := rs } :: after)) := by
  unfold effects
  refine Agree.bind (RuleBlock.agree_effect Exact.add_right_comm (vs.receive t) hperm hmethod) ?_
  rintro ⟨u, c⟩ ⟨u', c'⟩ hu - huu'
  have hdegrees : ∀ a ∈ u, a.2.degree.IsDegree := RuleBlock.isDegree_effect hbounded hu
  have htrails : Reordered (fun a => a.2.degree.IsDegree) (t ++ u) (t ++ u') :=
    (Reordered.of_perm huu' hdegrees).append_left ht
  -- the blocks after this one read the same degrees, however many of them there are
  have hafter : effects (vs.receive (t ++ u)) after = effects (vs.receive (t ++ u')) after :=
    effects_congr (fun w => hvs.degreeOf_eq (htrails.append_right w)) after
  simp only [Variables.receive_receive, hafter]
  rcases effects (vs.receive (t ++ u')) after with e | ⟨w, rest⟩
  · exact .error e e
  · refine .ok ⟨?_, c, c', rest, rfl, rfl⟩
    change Reordered _ (t ++ (u ++ w)) (t ++ (u' ++ w))
    rw [← List.append_assoc, ← List.append_assoc]
    exact htrails.append_right w

/-- Blocks of which one has its rules in another order: the trails differ in the order of a beginning, and
what is left of the other blocks does not differ. -/
theorem agree_effects {vs : Variables Exact} (hvs : Collected vs) {bs : List (RuleBlock Exact)} {k : Nat}
    {b : RuleBlock Exact} {rs : List (Rule Exact)} (hb : bs[k]? = some b) (hperm : b.rules.Perm rs)
    (hmethod : b.method.isUnordered = true) (hbounded : Bounded vs (bs.take (k + 1))) :
    Agree (fun p q => Reordered (fun a => a.2.degree.IsDegree) p.1 q.1 ∧ ∀ j, j ≠ k → q.2[j]? = p.2[j]?)
      (effects vs bs) (effects vs (bs.set k { b with rules := rs })) := by
  -- the blocks before and after the one of the index
  obtain ⟨hk, hbk⟩ := List.getElem?_eq_some_iff.1 hb
  have hset : ∀ c, bs.set k c = bs.take k ++ c :: bs.drop (k + 1) := by
    intro c
    rw [List.set_eq_take_append_cons_drop, if_pos hk]
  have hsplit : bs = bs.take k ++ b :: bs.drop (k + 1) := by
    rw [← hset, ← hbk, List.set_getElem_self]
  rw [List.take_add_one, hb] at hbounded
  rw [congrArg (effects vs) hsplit, hset, effects_append, effects_append]
  refine Agree.bind (.of_eq (T := Eq) (fun _ => rfl) rfl) ?_
  rintro p _ hp - rfl
  obtain ⟨hdegrees, hnow, -⟩ := hbounded.of_effects hp
  refine (agree_effects_cons hvs hdegrees hperm hmethod hnow _).map ?_
  rintro ⟨t, cs⟩ ⟨u, cs'⟩ ⟨htu, c, c', rest, rfl, rfl⟩
  refine ⟨htu, fun j hj => ?_⟩
  -- a block keeps its place
  have hlength : p.2.length = k := by
    rw [length_effects hp, List.length_take, min_eq_left hk.le]
  change (p.2 ++ c' :: rest)[j]? = (p.2 ++ c :: rest)[j]?
  rw [List.getElem?_append, List.getElem?_append]
  split
  · rfl
  · obtain ⟨i, hi⟩ : ∃ i, j - p.2.length = i + 1 := Nat.exists_eq_succ_of_ne_zero (by omega)
    rw [hi, List.getElem?_cons_succ, List.getElem?_cons_succ]

/-- What blocks leave behind, with the rules of one of them in another order: outputs that cannot be told
apart, and the same rules with the same degrees in all other blocks. -/
structure Indistinct (k : Nat) (s s' : Variables Exact × List (RuleBlock Exact)) : Prop where
  inputs : s'.1.inputs = s.1.inputs
  outputs : List.Forall₂ OutputVariable.Indistinct s.1.outputs s'.1.outputs
  blocks : ∀ j, j ≠ k → s'.2[j]? = s.2[j]?

/-- Stores that received reordered trails. -/
theorem Collected.indistinct {vs : Variables Exact} (hvs : Collected vs)
    (haggregation : ∀ v ∈ vs.outputs, v.fuzzyOutput.aggregation.isSome = true) {t u : Trail Exact}
    (htu : Reordered (fun a => a.2.degree.IsDegree) t u) :
    List.Forall₂ OutputVariable.Indistinct (vs.receive t).outputs (vs.receive u).outputs := by
  refine List.forall₂_map_left_iff.2 (List.forall₂_map_right_iff.2 (List.forall₂_same.2 fun v hv => ?_))
  exact OutputVariable.indistinct_receive (haggregation v hv) (hvs.reordered htu (List.mem_append_left _ hv))

/-- The order in which the rules of a block are declared does not matter under an activation method without
an order. After any number of blocks, also right after this one and after the last, either both orders were
refused, or the outputs cannot be told apart and the rules of the other blocks have the same degrees. -/
theorem activateBlocks_perm {e : Engine Exact} {k : Nat} {b : RuleBlock Exact} {rs : List (Rule Exact)}
    (hb : e.blocks[k]? = some b) (hperm : b.rules.Perm rs) (hmethod : b.method.isUnordered = true)
    (haggregation : ∀ v ∈ e.outputs, v.fuzzyOutput.aggregation.isSome = true)
    (hremoved : ∀ v ∈ e.store.removedOutputs, ∀ a ∈ v.fuzzyOutput.terms, a.degree.IsDegree)
    (hbounded : Bounded (clearOutputs e.store) (e.blocks.take (k + 1))) (n : Nat) :
    Agree (Indistinct k) (activateBlocks (e.blocks.take n) (clearOutputs e.store)).value
      (activateBlocks ((e.blocks.set k { b with rules := rs }).take n) (clearOutputs e.store)).value := by
  -- nothing but the removed outputs keeps activated terms from the cycle before
  have hvs : Collected (clearOutputs e.store) := by
    intro v hv a ha
    rcases List.mem_append.1 hv with hv | hv
    · obtain ⟨w, -, rfl⟩ := List.mem_map.1 hv
      cases ha
    · exact hremoved v hv a ha
  have houtputs : ∀ v ∈ (clearOutputs e.store).outputs, v.fuzzyOutput.aggregation.isSome = true := by
    intro v hv
    obtain ⟨w, hw, rfl⟩ := List.mem_map.1 hv
    exact haggregation w hw
  have heffects : Agree
      (fun p q => Reordered (fun a => a.2.degree.IsDegree) p.1 q.1 ∧ ∀ j, j ≠ k → q.2[j]? = p.2[j]?)
      (effects (clearOutputs e.store) (e.blocks.take n))
      (effects (clearOutputs e.store) ((e.blocks.take n).set k { b with rules := rs })) := by
    by_cases hkn : k < n
    · refine agree_effects hvs ?_ hperm hmethod ?_
      · rw [List.getElem?_take_of_lt hkn, hb]
      · rwa [List.take_take, min_eq_left hkn]
    -- the block is not reached
    · rw [List.set_eq_of_length_le ((List.length_take_le n e.blocks).trans (Nat.not_lt.1 hkn))]
      exact .of_eq (fun p => ⟨.refl p.1, fun _ _ => rfl⟩) rfl
  rw [List.take_set, value_activateBlocks, value_activateBlocks]
  refine heffects.map fun p q h => ?_
  exact ⟨rfl, hvs.indistinct houtputs h.1, h.2⟩

/-! ## §3 A relay -/

/-- An output with two terms, joined by their maximum. -/
noncomputable def exactOutput : OutputVariable Exact :=
  { OutputVariable.empty "y" 0.0 1.0 with
    id := 1
    terms := [⟨0, "LOW", .constant 0.25⟩, ⟨1, "HIGH", .constant 0.75⟩]
    fuzzyOutput := ⟨"y", 0.0, 1.0, some .maximum, []⟩ }

/-- A block whose rules have degrees and add something at every degree is not refused. -/
theorem exists_effect {vs : Variables Exact} {b : RuleBlock Exact} {ds : List (Exact × Nat)}
    (hds : b.degrees vs = .ok ds) (hadds : ∀ p, ∃ t, b.additionsOf vs p = .ok t) :
    ∃ p, b.effect vs = .ok p := by
  unfold RuleBlock.effect
  split
  · have hfired : ∀ p ∈ b.fired ds, ∃ t, b.additionsOf vs p = .ok t ∧ True :=
      fun p _ => (hadds p).imp fun _ ht => ⟨ht, trivial⟩
    obtain ⟨ts, hts, -⟩ := exists_mapM_of_forall hfired
    rw [hds, ok_bind, RuleBlock.allAdditions, hts]
    exact ⟨_, rfl⟩
  · exact ⟨_, rfl⟩

/-- A loaded rule of one condition and one conclusion about the output. -/
noncomputable def exactRule (weight : Exact) (condition : Proposition) (term : Nat) (name : String) :
    Rule Exact :=
  ⟨"", weight, true, "", some (.proposition condition), "", [⟨⟨1, "y", true⟩, [], some ⟨term, name⟩⟩],
    0.0, false⟩

/-- A proportional block, `if x is any then y is LOW` and `if x is any then y is HIGH with 0.5`. -/
noncomputable def exactBlock : RuleBlock Exact :=
  ⟨"first", true, none, none, none, some .proportional,
    [exactRule 1.0 ⟨⟨0, "x", false⟩, [.any], none⟩ 0 "LOW",
      exactRule 0.5 ⟨⟨0, "x", false⟩, [.any], none⟩ 1 "HIGH"]⟩

/-- A rule that reads what a block before it activates, `if y is LOW then y is HIGH`. -/
noncomputable def exactReading : Rule Exact :=
  exactRule 1.0 ⟨⟨1, "y", true⟩, [], some ⟨0, "LOW"⟩⟩ 1 "HIGH"

/-- A block of this rule. -/
noncomputable def exactReader : RuleBlock Exact := ⟨"second", true, none, none, none, none, [exactReading]⟩

/-- An engine of both blocks. -/
noncomputable def exactRelay : Engine Exact :=
  ⟨"relay", ⟨[Variable.empty "x" 0.0 1.0], [exactOutput], [], [], 2⟩, [exactBlock, exactReader], .idle⟩

theorem bounded_exactBlock : exactBlock.Bounded (clearOutputs exactRelay.store) := by
  have hone : (1.0 : Exact).IsDegree := by
    rw [literal_one, isDegree_finite]
    exact ⟨zero_le_one, le_refl 1⟩
  have hhalf : (0.5 : Exact).IsDegree := by
    rw [literal_half, isDegree_finite, half_eq]
    norm_num
  refine RuleBlock.bounded_of_antecedents ?_ ?_
  · intro r hr
    rcases List.mem_pair.1 hr with rfl | rfl
    · exact hone
    · exact hhalf
  · intro r hr d hd
    have hany : r.antecedentDegree (clearOutputs exactRelay.store) none none = .ok (1.0 : Exact) := by
      rcases List.mem_pair.1 hr with rfl | rfl
      · rfl
      · rfl
    cases hany.symm.trans hd
    exact hone

theorem exists_effect_exactBlock : ∃ p, exactBlock.effect (clearOutputs exactRelay.store) = .ok p := by
  have hdegrees : exactBlock.degrees (clearOutputs exactRelay.store) =
      .ok [(1.0 * 1.0, 0), (0.5 * 1.0, 1)] := rfl
  refine exists_effect hdegrees ?_
  rintro ⟨d, _ | _ | i⟩
  · exact ⟨_, rfl⟩
  · exact ⟨_, rfl⟩
  · exact ⟨[], rfl⟩

/-- The reading rule has a degree after every trail, since a maximum always has a value. -/
theorem exists_weightedDegree_exactReading (t : Trail Exact) :
    ∃ d, exactReading.weightedDegree ((clearOutputs exactRelay.store).receive t) none none = .ok d := by
  have hmaximum : ∀ ds a, ∃ d, Aggregated.accumulateAll (some .maximum) (a : Exact) ds = .ok d := by
    intro ds
    induction ds with
    | nil => exact fun a => ⟨a, rfl⟩
    | cons d ds ih => exact fun a => ih (greatest a d)
  obtain ⟨d, hd⟩ := hmaximum ((exactOutput.receive (t.on 1)).fuzzyOutput.degreesOf 0) 0.0
  have hreached : (liftM ((exactOutput.receive (t.on 1)).fuzzyOutput.activationDegree 0) :
      Except Error Exact) = .ok d := liftM_eq_ok_iff.2 hd
  refine ⟨1.0 * d, ?_⟩
  change ((liftM ((exactOutput.receive (t.on 1)).fuzzyOutput.activationDegree 0) : Except Error Exact) >>=
    fun d => liftM (Hedge.applyAll [] d)) >>= (fun d => pure (1.0 * d)) = _
  rw [hreached]
  rfl

theorem exists_effect_exactReader (t : Trail Exact) :
    ∃ p, exactReader.effect ((clearOutputs exactRelay.store).receive t) = .ok p := by
  obtain ⟨d, hd⟩ := exists_weightedDegree_exactReading t
  have hactive : RuleBlock.isActive exactReading = true := rfl
  have hdegrees : exactReader.degrees ((clearOutputs exactRelay.store).receive t) = .ok [(d, 0)] := by
    change RuleBlock.degreesFrom _ exactReader 0 [exactReading] = _
    rw [RuleBlock.degreesFrom_cons, if_pos hactive]
    change (exactReading.weightedDegree ((clearOutputs exactRelay.store).receive t) none none >>= _) = _
    rw [hd]
    rfl
  refine exists_effect hdegrees ?_
  rintro ⟨c, _ | i⟩
  · exact ⟨_, rfl⟩
  · exact ⟨[], rfl⟩

/-- Both orders of the two rules are carried out to the end, and cannot be told apart there. -/
theorem activateBlocks_perm_exactRelay :
    (∃ s, (activateBlocks exactRelay.blocks (clearOutputs exactRelay.store)).value = .ok s) ∧
      Agree (Indistinct 0) (activateBlocks exactRelay.blocks (clearOutputs exactRelay.store)).value
        (activateBlocks (exactRelay.blocks.set 0 { exactBlock with rules := exactBlock.rules.reverse })
          (clearOutputs exactRelay.store)).value := by
  have hperm : exactBlock.rules.Perm exactBlock.rules.reverse := (List.reverse_perm _).symm
  have haggregation : ∀ v ∈ exactRelay.outputs, v.fuzzyOutput.aggregation.isSome = true := by
    intro v hv
    cases List.mem_singleton.1 hv
    rfl
  have hbounded : Bounded (clearOutputs exactRelay.store) (exactRelay.blocks.take 1) :=
    ⟨fun _ => bounded_exactBlock, fun _ _ _ => trivial⟩
  refine ⟨?_, activateBlocks_perm (e := exactRelay) rfl hperm rfl haggregation (fun v hv => nomatch hv) hbounded 2⟩
  obtain ⟨p, hp⟩ := exists_effect_exactBlock
  obtain ⟨q, hq⟩ := exists_effect_exactReader p.1
  rw [value_activateBlocks]
  refine ⟨_, map_eq_ok_iff.2 ⟨(p.1 ++ (q.1 ++ []), [p.2, q.2]), ?_, rfl⟩⟩
  change effects _ [exactBlock, exactReader] = _
  simp only [effects, hp, hq, ok_bind, pure_eq_ok]

end Engine

end FuzzyInference
