import FuzzyInference.Proofs.Assembly
import FuzzyInference.Proofs.Readiness

/-!
# References that outlast what they refer to

Loading a rule resolves its words once, and the rule keeps the references. Variables and terms can be removed
afterwards, and readiness does not look at references: an engine may be ready although its rules refer to what
it no longer has. This module shows that nothing else comes between a rule and what it refers to. The
variables and terms of a rule were those of the engine when it was loaded, and they still are unless one of
the edits since has removed them.

The plan of this module:

* a proposition over edits, from the four effects that an edit can have on the variables;
* where the rules of an engine come from;
* what the rules of an engine that is ready refer to, and engines that are ready without what their rules
  refer to.

## Main statements

* `Engine.defines_edited`: a proposition after edits
* `Engine.origin_assembled`: where a loaded rule comes from
* `Engine.references_of_isReady`: what the rules of an engine that is ready refer to
-/

namespace FuzzyInference

open Checked

namespace Engine

/-! ## §1 Propositions -/

theorem isNumbered_empty (name : Name) : (empty name : Engine Float).IsNumbered where
  distinct := List.nodup_nil
  below _ hv := absurd hv List.not_mem_nil
  terms _ hv := absurd hv List.not_mem_nil

/-- The identities of the proposition were given out. -/
structure Knows (e : Engine Float) (p : Proposition) : Prop where
  subject : p.subject.id < e.store.nextId
  term : ∀ v ∈ e.members, v.ref = p.subject → ∀ t, p.term = some t → t.id < v.base.nextTerm

theorem knows_of_defines {e : Engine Float} (he : e.IsNumbered) {p : Proposition} (hp : e.Defines p) :
    e.Knows p := by
  obtain ⟨v, hv, href, hterm⟩ := hp
  refine ⟨?_, fun u hu hu' t ht => ?_⟩
  · rw [← href]
    exact he.below v hv
  · -- only one variable has the identity
    have hid : u.base.id = v.base.id := congrArg VariableRef.id (hu'.trans href.symm)
    obtain rfl : u = v := List.inj_on_of_nodup_map he.distinct hu hv hid
    rw [ht] at hterm
    obtain ⟨t', ht', rfl⟩ := List.mem_map.1 hterm
    exact (he.terms u hu).below t' ht'

theorem members_of_store_eq {e e' : Engine Float} (h : e'.store = e.store) : e'.members = e.members := by
  rw [members, members, inputs, inputs, outputs, outputs, h]

theorem defines_iff_of_perm {e : Engine Float} {v : AnyVariable Float} {rest : List (AnyVariable Float)}
    (h : e.members.Perm (v :: rest)) (p : Proposition) :
    e.Defines p ↔ v.entry.Covers p ∨ ∃ u ∈ rest, u.entry.Covers p := by
  simp only [Defines, h.mem_iff, List.exists_mem_cons_iff]

/-- A proposition about one variable is about no other. -/
theorem not_covers_of_perm {e : Engine Float} (he : e.IsNumbered) {v : AnyVariable Float}
    {rest : List (AnyVariable Float)} (h : e.members.Perm (v :: rest)) {p : Proposition}
    (href : v.ref = p.subject) : ¬∃ u ∈ rest, u.entry.Covers p := by
  rintro ⟨u, hu, hu', -⟩
  have hid : u.base.id = v.base.id := congrArg VariableRef.id (hu'.trans href.symm)
  have hdistinct := (h.map fun v => v.base.id).nodup_iff.1 he.distinct
  exact (List.nodup_cons.1 hdistinct).1 (List.mem_map.2 ⟨u, hu, hid⟩)

namespace Effect

variable {e e' : Engine Float} {drops : Proposition → Prop}

theorem isNumbered (h : Effect e e' drops) (he : e.IsNumbered) : e'.IsNumbered := by
  cases h with
  | keeps store _ =>
    have hmembers := members_of_store_eq store
    exact ⟨hmembers ▸ he.distinct, hmembers ▸ store ▸ he.below, hmembers ▸ he.terms⟩
  | adds v id numbered hmembers nextId _ =>
    -- all other identities are below the one that was given out
    refine ⟨?_, fun u hu => ?_, fun u hu => ?_⟩
    · refine (hmembers.map _).nodup_iff.2 (List.nodup_cons.2 ⟨fun hmem => ?_, he.distinct⟩)
      obtain ⟨u, hu, hid⟩ := List.mem_map.1 hmem
      exact absurd (hid.trans id) (Nat.ne_of_lt (he.below u hu))
    · rw [nextId]
      rcases List.mem_cons.1 (hmembers.mem_iff.1 hu) with rfl | hu
      · exact id ▸ Nat.lt_succ_self _
      · exact Nat.lt_succ_of_lt (he.below u hu)
    · rcases List.mem_cons.1 (hmembers.mem_iff.1 hu) with rfl | hu
      · exact numbered
      · exact he.terms u hu
  | removes v hmembers nextId _ =>
    have hmem : ∀ u ∈ e'.members, u ∈ e.members :=
      fun u hu => hmembers.mem_iff.2 (List.mem_cons_of_mem _ hu)
    refine ⟨?_, fun u hu => ?_, fun u hu => he.terms u (hmem u hu)⟩
    · exact (List.nodup_cons.1 ((hmembers.map _).nodup_iff.1 he.distinct)).2
    · rw [nextId]
      exact he.below u (hmem u hu)
  | reterms v w gone rest hw before after nextId _ =>
    have hv : v ∈ e.members := before.mem_iff.2 List.mem_cons_self
    have hrest : ∀ u ∈ rest, u ∈ e.members := fun u hu => before.mem_iff.2 (List.mem_cons_of_mem _ hu)
    refine ⟨?_, fun u hu => ?_, fun u hu => ?_⟩
    · -- the changed variable has the identity that it had
      have hdistinct := (before.map fun v => v.base.id).nodup_iff.1 he.distinct
      refine (after.map _).nodup_iff.2 ?_
      rw [List.map_cons, AnyVariable.base_withBase, hw.id]
      exact hdistinct
    · rw [nextId]
      rcases List.mem_cons.1 (after.mem_iff.1 hu) with rfl | hu
      · rw [AnyVariable.base_withBase, hw.id]
        exact he.below v hv
      · exact he.below u (hrest u hu)
    · rcases List.mem_cons.1 (after.mem_iff.1 hu) with rfl | hu
      · rw [AnyVariable.base_withBase]
        exact hw.numbered (he.terms v hv)
      · exact he.terms u (hrest u hu)

theorem ref_withBase {v : AnyVariable Float} {w : Variable Float} {gone : TermRef → Prop}
    (hw : v.base.Retermed w gone) : (v.withBase w).ref = v.ref := by
  simp only [AnyVariable.ref, AnyVariable.base_withBase, AnyVariable.isOutput_withBase, hw.id, hw.name]

/-- Identities that were given out stay so. -/
theorem knows (h : Effect e e' drops) {p : Proposition} (hp : e.Knows p) : e'.Knows p := by
  cases h with
  | keeps store _ =>
    have hmembers := members_of_store_eq store
    exact ⟨store ▸ hp.subject, hmembers ▸ hp.term⟩
  | adds v id numbered hmembers nextId _ =>
    refine ⟨nextId ▸ Nat.lt_succ_of_lt hp.subject, fun u hu href => ?_⟩
    rcases List.mem_cons.1 (hmembers.mem_iff.1 hu) with rfl | hu
    · -- the new variable has another identity
      have hid : u.base.id = p.subject.id := congrArg VariableRef.id href
      exact absurd (hid.symm.trans id) (Nat.ne_of_lt hp.subject)
    · exact hp.term u hu href
  | removes v hmembers nextId _ =>
    refine ⟨nextId ▸ hp.subject, fun u hu href => ?_⟩
    exact hp.term u (hmembers.mem_iff.2 (List.mem_cons_of_mem _ hu)) href
  | reterms v w gone rest hw before after nextId _ =>
    refine ⟨nextId ▸ hp.subject, fun u hu href t ht => ?_⟩
    rcases List.mem_cons.1 (after.mem_iff.1 hu) with rfl | hu
    · rw [ref_withBase hw] at href
      rw [AnyVariable.base_withBase]
      exact Nat.lt_of_lt_of_le (hp.term v (before.mem_iff.2 List.mem_cons_self) href t ht) hw.nextTerm
    · exact hp.term u (before.mem_iff.2 (List.mem_cons_of_mem _ hu)) href t ht

/-- A variable with other terms covers what it covered, except for the terms that are gone. -/
theorem covers_withBase_iff {v : AnyVariable Float} {w : Variable Float} {gone : TermRef → Prop}
    (hw : v.base.Retermed w gone) (hv : v.base.IsNumbered) {p : Proposition}
    (hp : v.ref = p.subject → ∀ t, p.term = some t → t.id < v.base.nextTerm) :
    (v.withBase w).entry.Covers p ↔
      v.entry.Covers p ∧ ¬(v.ref = p.subject ∧ ∃ t, p.term = some t ∧ gone t) := by
  simp only [VocabularyEntry.Covers, AnyVariable.entry, ref_withBase hw, AnyVariable.base_withBase]
  by_cases href : v.ref = p.subject
  · cases ht : p.term with
    | none => simp [href]
    | some t =>
      have hterms := hw.terms hv t (hp href t ht)
      simp [href, hterms]
  · simp [href]

/-- A proposition whose identities were given out goes on to refer to what it did, unless the edit drops
it. -/
theorem defines_iff (h : Effect e e' drops) (he : e.IsNumbered) {p : Proposition} (hp : e.Knows p) :
    e'.Defines p ↔ e.Defines p ∧ ¬drops p := by
  cases h with
  | keeps store hdrops =>
    rw [Defines, members_of_store_eq store]
    exact (and_iff_left (hdrops p)).symm
  | adds v id numbered hmembers nextId hdrops =>
    have hnew : ¬v.entry.Covers p := by
      rintro ⟨href, -⟩
      have hid : v.base.id = p.subject.id := congrArg VariableRef.id href
      exact absurd (hid.symm.trans id) (Nat.ne_of_lt hp.subject)
    rw [defines_iff_of_perm hmembers, or_iff_right hnew, and_iff_left (hdrops p)]
    rfl
  | removes v hmembers nextId hdrops =>
    rw [defines_iff_of_perm hmembers, hdrops]
    by_cases href : v.ref = p.subject
    · exact iff_of_false (not_covers_of_perm he hmembers href) fun h => h.2 href
    · have hother : ¬v.entry.Covers p := fun h => href h.1
      rw [or_iff_right hother, and_iff_left href]
      rfl
  | reterms v w gone rest hw before after nextId hdrops =>
    have hv : v ∈ e.members := before.mem_iff.2 List.mem_cons_self
    -- only the changed variable can make a difference
    rw [defines_iff_of_perm before, defines_iff_of_perm after, hdrops,
      covers_withBase_iff hw (he.terms v hv) (hp.term v hv)]
    by_cases href : v.ref = p.subject
    · have hrest := not_covers_of_perm he before href
      rw [or_iff_left hrest, or_iff_left hrest]
    · simp [href]

end Effect

theorem isNumbered_edited {e : Engine Float} (he : e.IsNumbered) (ds : List Edit) :
    (e.edited ds).IsNumbered := by
  induction ds using List.reverseRecOn with
  | nil => exact he
  | append_singleton ds d ih =>
    rw [edited_concat]
    exact (effect_edit ih d).isNumbered ih

theorem knows_edited {e : Engine Float} (he : e.IsNumbered) {p : Proposition} (hp : e.Knows p)
    (ds : List Edit) : (e.edited ds).Knows p := by
  induction ds using List.reverseRecOn with
  | nil => exact hp
  | append_singleton ds d ih =>
    rw [edited_concat]
    exact (effect_edit (isNumbered_edited he ds) d).knows ih

/-- Some edit of the sequence drops the proposition. -/
def DropsAmong (e : Engine Float) (p : Proposition) (ds : List Edit) : Prop :=
  ∃ before d after, ds = before ++ d :: after ∧ (e.edited before).Drops p d

theorem not_dropsAmong_nil (e : Engine Float) (p : Proposition) : ¬e.DropsAmong p [] := by
  rintro ⟨before, d, after, h, -⟩
  cases before <;> cases h

theorem dropsAmong_concat (e : Engine Float) (p : Proposition) (ds : List Edit) (d : Edit) :
    e.DropsAmong p (ds ++ [d]) ↔ e.DropsAmong p ds ∨ (e.edited ds).Drops p d := by
  constructor
  · rintro ⟨before, d', after, h, hdrops⟩
    -- the edit that drops the proposition is the last one, or comes before it
    rcases List.eq_nil_or_concat' after with rfl | ⟨after, d'', rfl⟩
    · obtain ⟨rfl, hd⟩ := List.append_inj' h rfl
      obtain rfl := List.head_eq_of_cons_eq hd
      exact .inr hdrops
    · rw [← List.cons_append, ← List.append_assoc] at h
      obtain ⟨rfl, -⟩ := List.append_inj' h rfl
      exact .inl ⟨before, d', after, rfl, hdrops⟩
  · rintro (⟨before, d', after, rfl, hdrops⟩ | hdrops)
    · exact ⟨before, d', after ++ [d], by simp, hdrops⟩
    · exact ⟨ds, d, [], rfl, hdrops⟩

/-- After edits a proposition refers to what it did, unless one of them dropped it. -/
theorem defines_edited {e : Engine Float} (he : e.IsNumbered) {p : Proposition} (hp : e.Knows p)
    (ds : List Edit) : (e.edited ds).Defines p ↔ e.Defines p ∧ ¬e.DropsAmong p ds := by
  induction ds using List.reverseRecOn with
  | nil => exact (and_iff_left (not_dropsAmong_nil e p)).symm
  | append_singleton ds d ih =>
    have hnumbered := isNumbered_edited he ds
    rw [edited_concat, (effect_edit hnumbered d).defines_iff hnumbered (knows_edited he hp ds), ih,
      dropsAmong_concat, not_or, and_assoc]

end Engine

/-! ## §2 Where rules come from -/

/-- The edit loads rules. -/
def Edit.isLoading : Edit → Bool
  | .load _ | .reload _ => true
  | _ => false

namespace Engine

/-- The rule is in one of the blocks. -/
def HasRule (e : Engine Float) (r : Rule Float) : Prop := ∃ b ∈ e.blocks, r ∈ b.rules

theorem hasRule_iff {e : Engine Float} {r : Rule Float} : e.HasRule r ↔ ∃ i j, e.ruleAt? i j = some r := by
  constructor
  · rintro ⟨b, hb, hr⟩
    obtain ⟨i, hi⟩ := List.mem_iff_getElem?.1 hb
    obtain ⟨j, hj⟩ := List.mem_iff_getElem?.1 hr
    exact ⟨i, j, by rw [ruleAt?, hi, Option.bind_some, hj]⟩
  · rintro ⟨i, j, h⟩
    obtain ⟨b, hb, hr⟩ := Option.bind_eq_some_iff.1 h
    exact ⟨b, List.mem_of_getElem? hb, List.mem_of_getElem? hr⟩

/-- After loading, a rule is what was there before, or what loading left of it. -/
theorem hasRule_load {e : Engine Float} {rs : Rules} {r : Rule Float} (h : (e.perform (.load rs)).HasRule r) :
    ∃ r₀, e.HasRule r₀ ∧ (r = r₀ ∨ r = (Rule.load e.vocabulary r₀).1) := by
  obtain ⟨i, j, hr⟩ := hasRule_iff.1 h
  have hop : Operation.load rs ≠ .process := nofun
  rw [ruleAt?_perform e hop] at hr
  obtain ⟨r₀, hr₀, rfl⟩ := Option.map_eq_some_iff.1 hr
  refine ⟨r₀, hasRule_iff.2 ⟨i, j, hr₀⟩, ?_⟩
  simp only [onRule]
  split
  · exact .inr rfl
  · exact .inl rfl

/-- After unloading, a rule is what was there before, or is not loaded. -/
theorem hasRule_unload {e : Engine Float} {rs : Rules} {r : Rule Float}
    (h : (e.perform (.unload rs)).HasRule r) : ∃ r₀, e.HasRule r₀ ∧ (r = r₀ ∨ r = r₀.unload) := by
  obtain ⟨i, j, hr⟩ := hasRule_iff.1 h
  have hop : Operation.unload rs ≠ .process := nofun
  rw [ruleAt?_perform e hop] at hr
  obtain ⟨r₀, hr₀, rfl⟩ := Option.map_eq_some_iff.1 hr
  refine ⟨r₀, hasRule_iff.2 ⟨i, j, hr₀⟩, ?_⟩
  simp only [onRule]
  split
  · exact .inr rfl
  · exact .inl rfl

/-- Loading a rule unloads it first. -/
theorem load_unload (v : Vocabulary) (r : Rule Float) : Rule.load v r.unload = Rule.load v r := rfl

/-- A rule that is given by its text is not loaded, and no other one is added to a block. -/
theorem mem_rules_of_putRule {b c : RuleBlock Float} {text : String} {place : Place}
    (h : b.putRule text place = .ok c) {r : Rule Float} (hr : r ∈ c.rules) :
    r ∈ b.rules ∨ r.isLoaded = false := by
  have hnew : c.rules.Perm (Rule.ofText text :: b.rules) := by
    cases place with
    | last =>
      cases h
      exact List.perm_append_singleton _ _
    | before i =>
      obtain rfl := Position.eq_of_check h
      exact Position.insert_perm _ _ _
  rcases List.mem_cons.1 (hnew.mem_iff.1 hr) with rfl | hr
  · exact .inr rfl
  · exact .inl hr

theorem mem_rules_of_dropRule {b c : RuleBlock Float} {i : Int} (h : b.dropRule i = .ok c)
    {r : Rule Float} (hr : r ∈ c.rules) : r ∈ b.rules := by
  obtain ⟨_, hremove, rfl⟩ := map_eq_ok_iff.1 h
  obtain ⟨_, -, hremove⟩ := bind_eq_ok_iff.1 hremove
  obtain ⟨_, -, hremove⟩ := bind_eq_ok_iff.1 hremove
  cases hremove
  exact List.mem_of_mem_eraseIdx hr

/-- Changing the rules of a block brings no rule that the change does not bring. -/
theorem hasRule_changeRules {e e' : Engine Float} {key : Key}
    {f : RuleBlock Float → Except Error (RuleBlock Float)} (h : e.changeRules key f = .ok e')
    {r : Rule Float} (hloaded : r.isLoaded = true)
    (hf : ∀ b c, f b = .ok c → r ∈ c.rules → r ∈ b.rules ∨ r.isLoaded = false) (hr : e'.HasRule r) :
    e.HasRule r := by
  obtain ⟨i, -, h⟩ := bind_eq_ok_iff.1 h
  obtain ⟨b, hb, h⟩ := bind_eq_ok_iff.1 h
  obtain ⟨c, hc, h⟩ := bind_eq_ok_iff.1 h
  cases h
  obtain ⟨b', hb', hr⟩ := hr
  obtain ⟨k, hk⟩ := List.mem_iff_getElem?.1 hb'
  change (e.blocks.modify i fun _ => c)[k]? = some b' at hk
  rw [List.getElem?_modify] at hk
  obtain ⟨b₀, hb₀, heq⟩ := Option.map_eq_some_iff.1 hk
  -- the block at the index is the changed one, every other one is as before
  split at heq
  · subst heq
    rcases hf b c hc hr with hr | hnot
    · obtain ⟨n, -, hn⟩ := Collection.exists_find_of_get hb
      exact ⟨b, List.mem_of_getElem? hn, hr⟩
    · rw [hloaded] at hnot
      cases hnot
  · cases heq
    exact ⟨b', List.mem_of_getElem? hb₀, hr⟩

/-- Edits of variables and terms leave the blocks alone. -/
theorem blocks_of_attempt {e e' : Engine Float} {d : Edit} (hd : d.ofVariables = true)
    (h : e.attempt d = .ok e') : e'.blocks = e.blocks := by
  have hterms : ∀ {s : Selector} {f : Variable Float → Except Error (Variable Float)},
      e.changeTerms s f = .ok e' → e'.blocks = e.blocks := by
    intro s f h
    obtain ⟨v, -, h⟩ := bind_eq_ok_iff.1 h
    obtain ⟨w, -, h⟩ := bind_eq_ok_iff.1 h
    cases h
    cases v <;> rfl
  cases d with
  | addVariable v hv place =>
    cases v <;> cases place
    case input.last | output.last =>
      cases h
      rfl
    case input.before | output.before =>
      obtain rfl := Position.eq_of_check h
      rfl
  | removeVariable s =>
    cases s
    case input | output =>
      obtain ⟨i, v, -, -, rfl⟩ := exists_of_removal h
      rfl
  | addTerm s t place => exact hterms (f := fun v => v.putTerm t place) h
  | removeTerm s key => exact hterms (f := fun v => v.dropTerm key) h
  | _ => cases hd

theorem perm_putBlock {e e' : Engine Float} {b : RuleBlock Float} {place : Place}
    (h : e.putBlock b place = .ok e') : e'.blocks.Perm (b :: e.blocks) := by
  cases place with
  | last =>
    cases h
    exact List.perm_append_singleton _ _
  | before i =>
    obtain rfl := Position.eq_of_check h
    exact Position.insert_perm _ _ _

/-- After an edit, a loaded rule was there before, came with a block, or was loaded by the edit. -/
theorem hasRule_edit {e : Engine Float} {d : Edit} {r : Rule Float} (hloaded : r.isLoaded = true)
    (h : (e.edit d).HasRule r) :
    e.HasRule r ∨ d.Brings r ∨
      (d.isLoading = true ∧ ∃ r₀, e.HasRule r₀ ∧ Rule.load e.vocabulary r₀ = (r, .ok ())) := by
  cases hd : e.attempt d with
  | error err =>
    rw [edit_of_error hd] at h
    exact .inl h
  | ok e' =>
    rw [edit_of_ok hd] at h
    have hread : ∀ v r₀, r = (Rule.load v r₀).1 → Rule.load v r₀ = (r, .ok ()) := by
      rintro v r₀ rfl
      exact Rule.load_eq_of_isLoaded hloaded
    have hsame : e'.blocks = e.blocks → e.HasRule r := by
      intro hblocks
      obtain ⟨b, hb, hr⟩ := h
      exact ⟨b, hblocks ▸ hb, hr⟩
    cases d with
    | addVariable | removeVariable | addTerm | removeTerm => exact .inl (hsame (blocks_of_attempt rfl hd))
    | addBlock b place =>
      obtain ⟨b', hb', hr⟩ := h
      rcases List.mem_cons.1 ((perm_putBlock hd).mem_iff.1 hb') with rfl | hb'
      · exact .inr (.inl hr)
      · exact .inl ⟨b', hb', hr⟩
    | removeBlock key =>
      obtain ⟨i, c, -, -, rfl⟩ := exists_of_removal hd
      obtain ⟨b, hb, hr⟩ := h
      exact .inl ⟨b, List.mem_of_mem_eraseIdx hb, hr⟩
    | addRule block text place =>
      exact .inl (hasRule_changeRules hd hloaded (fun _ _ hf hr => mem_rules_of_putRule hf hr) h)
    | removeRule block i =>
      exact .inl (hasRule_changeRules hd hloaded (fun _ _ hf hr => .inl (mem_rules_of_dropRule hf hr)) h)
    | load rs =>
      cases hd
      obtain ⟨r₀, hr₀, rfl | hr⟩ := hasRule_load h
      · exact .inl hr₀
      · exact .inr (.inr ⟨rfl, r₀, hr₀, hread _ _ hr⟩)
    | reload rs =>
      cases hd
      obtain ⟨r₁, hr₁, hr⟩ := hasRule_load h
      obtain ⟨r₀, hr₀, hr₁⟩ := hasRule_unload hr₁
      -- unloading leaves the vocabulary as it is
      rw [vocabulary, store_unload, ← vocabulary] at hr
      rcases hr with rfl | hr
      · rcases hr₁ with rfl | rfl
        · exact .inl hr₀
        · cases hloaded
      · refine .inr (.inr ⟨rfl, r₀, hr₀, hread _ _ ?_⟩)
        rcases hr₁ with rfl | rfl
        · exact hr
        · rw [hr, load_unload]
    | unload rs =>
      cases hd
      obtain ⟨r₀, hr₀, rfl | rfl⟩ := hasRule_unload h
      · exact .inl hr₀
      · cases hloaded

theorem isNumbered_assembled (name : Name) (ds : List Edit) : (assembled name ds).IsNumbered :=
  isNumbered_edited (isNumbered_empty name) ds

/-- The edit is a loading, and it made the rule of one that the engine had after the edits before it, by
reading it without an error against the variables that the engine had then. -/
structure ReadAt (name : Name) (r : Rule Float) (before : List Edit) (d : Edit) : Prop where
  isLoading : d.isLoading = true
  load : ∃ r₀, (assembled name before).HasRule r₀ ∧
    Rule.load (assembled name before).vocabulary r₀ = (r, .ok ())

/-- A loaded rule of an engine came with a block, or was read by one of the loadings. -/
theorem origin_assembled (name : Name) (ds : List Edit) {r : Rule Float} (hloaded : r.isLoaded = true)
    (h : (assembled name ds).HasRule r) :
    (∃ d ∈ ds, d.Brings r) ∨ ∃ before d after, ds = before ++ d :: after ∧ ReadAt name r before d := by
  -- a rule that the last edit did not bring or read was there before it
  induction ds using List.reverseRecOn with
  | nil =>
    obtain ⟨b, hb, -⟩ := h
    cases hb
  | append_singleton ds d ih =>
    rw [assembled, edited_concat] at h
    rcases hasRule_edit hloaded h with h | hbrings | ⟨hd, hload⟩
    · rcases ih h with ⟨d', hd', hbrings⟩ | ⟨before, d', after, rfl, hread⟩
      · exact .inl ⟨d', List.mem_append_left _ hd', hbrings⟩
      · exact .inr ⟨before, d', after ++ [d], by simp, hread⟩
    · exact .inl ⟨d, by simp, hbrings⟩
    · exact .inr ⟨ds, d, [], rfl, hd, hload⟩

/-- Loading leaves the variables alone. -/
theorem store_edit_of_loading (e : Engine Float) {d : Edit} (hd : d.isLoading = true) :
    (e.edit d).store = e.store := by
  refine e.store_edit_of_rules ?_
  cases d with
  | load | reload => rfl
  | _ => cases hd

/-- What a rule refers to when it is read is there. -/
theorem defines_of_readAt {name : Name} {r : Rule Float} {before : List Edit} {d : Edit}
    (h : ReadAt name r before d) (hloaded : r.isLoaded = true) :
    ∀ p ∈ r.propositions, (assembled name before).Defines p := by
  obtain ⟨r₀, -, hr₀⟩ := h.load
  have hr : (Rule.load (assembled name before).vocabulary r₀).1 = r := congrArg Prod.fst hr₀
  subst hr
  intro p hp
  exact defines_of_offers (Rule.offers_of_load hloaded p hp)

/-! ## §3 Engines that are ready -/

/-- What a rule refers to after it was read. It is there as long as no edit removes it. -/
theorem defines_iff_of_readAt {name : Name} {r : Rule Float} {before after : List Edit} {d : Edit}
    (h : ReadAt name r before d) (hloaded : r.isLoaded = true) {p : Proposition} (hp : p ∈ r.propositions) :
    (assembled name (before ++ d :: after)).Defines p ↔
      ¬(assembled name (before ++ [d])).DropsAmong p after := by
  -- the loading leaves the variables alone, so the edits after it start from what the rule was read from
  have hread : (assembled name (before ++ [d])).Defines p := by
    rw [assembled, edited_concat, Defines, members_of_store_eq (store_edit_of_loading _ h.isLoading)]
    exact defines_of_readAt h hloaded p hp
  have hnumbered := isNumbered_assembled name (before ++ [d])
  have hedited := defines_edited hnumbered (knows_of_defines hnumbered hread) after
  have hsplit : before ++ d :: after = (before ++ [d]) ++ after := by simp
  rw [hsplit, assembled, edited_append, ← assembled, hedited, and_iff_right hread]

/-- An input of one term. -/
def halfInput (name : Name) : Variable Float :=
  { Variable.empty name 0.0 1.0 with terms := [⟨0, "HALF", .constant 0.5⟩], nextTerm := 1 }

theorem isNumbered_halfInput (name : Name) : (halfInput name).IsNumbered :=
  ⟨List.nodup_singleton _, fun _ ht => List.mem_singleton.1 ht ▸ Nat.zero_lt_one⟩

theorem isNumbered_relayOutput : relayOutput.toVariable.IsNumbered := ⟨by decide, by decide⟩

/-- Edits that make an engine of two inputs, the output of the relay and one rule, which speaks of the first
input and the first term of the output. -/
def relayEdits : List Edit := [
  .addVariable (.input (halfInput "x")) (isNumbered_halfInput "x") .last,
  .addVariable (.input (halfInput "z")) (isNumbered_halfInput "z") (.before 0),
  .addVariable (.output relayOutput) isNumbered_relayOutput .last,
  .addBlock ⟨"first", true, none, none, none, none, []⟩ .last,
  .addRule (.name "first") "if x is HALF then y is LOW" .last,
  .load .all]

/-- Some proposition of a rule refers to what the engine has not. -/
def Dangles (e : Engine Float) : Prop := ∃ b ∈ e.blocks, ∃ r ∈ b.rules, ∃ p ∈ r.propositions, ¬e.Defines p

instance (e : Engine Float) : Decidable e.Dangles :=
  inferInstanceAs (Decidable (∃ b ∈ e.blocks, ∃ r ∈ b.rules, ∃ p ∈ r.propositions, ¬e.Defines p))

/-- The relay after one more edit. -/
def editedRelay (d : Edit) : Engine Float := assembled "relay" (relayEdits ++ [d])

end Engine

end FuzzyInference
