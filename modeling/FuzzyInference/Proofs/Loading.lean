import FuzzyInference.Proofs.Restart
import FuzzyInference.Proofs.Rules.Language

/-!
# Loading rules one by one

The rules of a block are loaded in a loop, and the blocks of an engine in another one. A rule that cannot be
read is listed with its index and left unloaded; it neither stops nor changes what becomes of the others. Every
rule ends as loading it on its own would leave it, whatever was read of it before, so that loading may be
repeated.

An engine is built from a document leniently or strictly. Both builds do the same up to the loading of the
rules, and they differ only where a rule fails: the lenient build keeps the rule unloaded, the strict one is
stopped by an error that lists all failures.

The plan of this module:

* one rule;
* the failures of a block, and of an engine;
* lenient and strict builds.

## Main statements

* `Rule.isLoaded_load`: loading leaves a rule loaded when it is not refused
* `RuleBlock.mem_failures_iff`, `RuleBlock.failures_increasing`: the failures of a block
* `Engine.loading_apart`: loading blocks and engines, and strict builds
-/

namespace FuzzyInference

open Checked

/-! ## §1 One rule -/

namespace Rule

/-- What was read of a rule before does not matter. -/
theorem load_unload (v : Vocabulary) (r : Rule Float) : r.unload.load v = r.load v := rfl

/-- Loading leaves a rule loaded when it is not refused. -/
theorem isLoaded_load (v : Vocabulary) (r : Rule Float) :
    (r.load v).1.isLoaded = true ↔ (r.load v).2 = .ok () := by
  constructor
  · intro h
    rw [load_eq_of_isLoaded h]
  · intro h
    obtain ⟨parts, c, ps, hparts, hc, hps⟩ := exists_of_load h
    rw [load_eq hparts hc hps]
    -- a consequent that was read has a conclusion
    have hne : ps ≠ [] := (readConclusions_eq_ok_iff.1 hps).ne_nil
    simp [isLoaded, hne]

/-- What is read depends on the text alone, and so does the weight unless the text leaves it as it is. -/
theorem load_congr (v : Vocabulary) {r s : Rule Float} (h : r.text = s.text) :
    (r.load v).2 = (s.load v).2 ∧ (r.load v).1.antecedent = (s.load v).1.antecedent ∧
      (r.load v).1.conclusions = (s.load v).1.conclusions ∧
      (r.weight = s.weight → (r.load v).1.weight = (s.load v).1.weight) := by
  have hr : r.unload.text = s.text := h
  have hs : s.unload.text = s.text := rfl
  unfold load
  dsimp only
  rw [hr, hs]
  -- the two runs go the same way at every match
  split
  · exact ⟨rfl, rfl, rfl, id⟩
  · rename_i parts _
    have hweight : r.weight = s.weight →
        (r.unload.takeParts parts).weight = (s.unload.takeParts parts).weight :=
      congrArg fun w => parts.weight.getD w
    have htext : (r.unload.takeParts parts).text = (s.unload.takeParts parts).text := h
    split
    · exact ⟨by simp only [htext], rfl, rfl, hweight⟩
    · split
      · exact ⟨by simp only [htext], rfl, rfl, hweight⟩
      · exact ⟨rfl, rfl, rfl, hweight⟩

theorem text_load (v : Vocabulary) (r : Rule Float) : (r.load v).1.text = r.text := by
  unfold load
  dsimp only
  split
  · rfl
  · split
    · rfl
    · split
      · rfl
      · rfl

end Rule

/-! ## §2 The failures of a block -/

namespace RuleBlock

/-- The failures of loading the block. -/
def failures (v : Vocabulary) (b : RuleBlock Float) : List Failure := (b.loadAll v).2.2

/-- What one more rule in front adds to the failures. -/
theorem failures_loadFrom_cons (v : Vocabulary) (block : Name) (n : Nat) (r : Rule Float)
    (rs : List (Rule Float)) :
    (loadFrom v block n (r :: rs)).2.2 =
      match (r.load v).2 with
      | .ok () => (loadFrom v block (n + 1) rs).2.2
      | .error e => (n, e) :: (loadFrom v block (n + 1) rs).2.2 := by
  rw [loadFrom]
  generalize loadFrom v block (n + 1) rs = loaded
  rcases r.load v with ⟨r', _ | _⟩ <;> rfl

theorem mem_failures_loadFrom_iff (v : Vocabulary) (block : Name) (n : Nat) (rs : List (Rule Float))
    (i : Nat) (e : RuleError) :
    (i, e) ∈ (loadFrom v block n rs).2.2 ↔ ∃ k r, i = n + k ∧ rs[k]? = some r ∧ (r.load v).2 = .error e := by
  -- by induction on the rules; the first one has the index that the count has reached
  induction rs generalizing n with
  | nil => simp [loadFrom]
  | cons r rs ih =>
    have hrest : (∃ k s, i = n + 1 + k ∧ rs[k]? = some s ∧ (s.load v).2 = .error e) ↔
        ∃ k s, i = n + (k + 1) ∧ (r :: rs)[k + 1]? = some s ∧ (s.load v).2 = .error e := by
      simp only [List.getElem?_cons_succ, Nat.add_assoc, Nat.add_comm 1]
    rw [failures_loadFrom_cons]
    constructor
    · intro h
      cases hload : (r.load v).2 with
      | ok u =>
        rw [hload] at h
        obtain ⟨k, s, hs⟩ := hrest.1 ((ih (n + 1)).1 h)
        exact ⟨k + 1, s, hs⟩
      | error err =>
        rw [hload] at h
        rcases List.mem_cons.1 h with h | h
        · cases h
          exact ⟨0, r, rfl, rfl, hload⟩
        · obtain ⟨k, s, hs⟩ := hrest.1 ((ih (n + 1)).1 h)
          exact ⟨k + 1, s, hs⟩
    · rintro ⟨k, s, hi, hs, hload⟩
      cases k with
      | zero =>
        cases hs
        rw [hload, hi]
        exact List.mem_cons_self
      | succ k =>
        have hmem := (ih (n + 1)).2 (hrest.2 ⟨k, s, hi, hs, hload⟩)
        split
        · exact hmem
        · exact List.mem_cons_of_mem _ hmem

theorem pairwise_failures_loadFrom (v : Vocabulary) (block : Name) (n : Nat) (rs : List (Rule Float)) :
    (loadFrom v block n rs).2.2.Pairwise fun f g => f.1 < g.1 := by
  induction rs generalizing n with
  | nil => exact .nil
  | cons r rs ih =>
    rw [failures_loadFrom_cons]
    split
    · exact ih (n + 1)
    · refine List.pairwise_cons.2 ⟨fun f hf => ?_, ih (n + 1)⟩
      -- the rules that follow have larger indices
      obtain ⟨k, s, hi, -⟩ := (mem_failures_loadFrom_iff v block (n + 1) rs f.1 f.2).1 hf
      omega

/-- A failure is that of loading the rule at its index on its own. -/
theorem mem_failures_iff (v : Vocabulary) (b : RuleBlock Float) (i : Nat) (e : RuleError) :
    (i, e) ∈ b.failures v ↔ ∃ r, b.rules[i]? = some r ∧ (r.load v).2 = .error e := by
  rw [failures, loadAll]
  refine (mem_failures_loadFrom_iff v b.name 0 b.rules i e).trans ⟨?_, ?_⟩
  · rintro ⟨k, r, hi, hr, hload⟩
    rw [Nat.zero_add] at hi
    exact ⟨r, hi ▸ hr, hload⟩
  · rintro ⟨r, hr, hload⟩
    exact ⟨i, r, (Nat.zero_add i).symm, hr, hload⟩

/-- Failures come in the order of the rules, at most one for each. -/
theorem failures_increasing (v : Vocabulary) (b : RuleBlock Float) :
    (b.failures v).Pairwise fun f g => f.1 < g.1 :=
  pairwise_failures_loadFrom v b.name 0 b.rules

theorem failures_eq_nil_iff (v : Vocabulary) (b : RuleBlock Float) :
    b.failures v = [] ↔ ∀ r ∈ b.rules, (r.load v).2 = .ok () := by
  rw [List.eq_nil_iff_forall_not_mem]
  constructor
  · intro h r hr
    cases hload : (r.load v).2 with
    | ok u => rfl
    | error e =>
      obtain ⟨i, hi⟩ := List.mem_iff_getElem?.1 hr
      exact absurd ((mem_failures_iff v b i e).2 ⟨r, hi, hload⟩) (h (i, e))
  · rintro h ⟨i, e⟩ hmem
    obtain ⟨r, hr, hload⟩ := (mem_failures_iff v b i e).1 hmem
    rw [h r (List.mem_of_getElem? hr)] at hload
    cases hload

/-- Loading changes nothing of a block but its rules, each on its own. -/
theorem fst_loadAll (v : Vocabulary) (b : RuleBlock Float) :
    (b.loadAll v).1 = { b with rules := b.rules.map fun r => (r.load v).1 } :=
  congrArg (fun rs => { b with rules := rs }) (Engine.rules_loadFrom v b.name 0 b.rules)

theorem loadFrom_map_unload (v : Vocabulary) (block : Name) (n : Nat) (rs : List (Rule Float)) :
    loadFrom v block n (rs.map Rule.unload) = loadFrom v block n rs := by
  induction rs generalizing n with
  | nil => rfl
  | cons r rs ih => rw [List.map_cons, loadFrom, ih, Rule.load_unload, loadFrom]

/-- Loading again fails where it failed before. -/
theorem failures_fst_loadAll (v : Vocabulary) (b : RuleBlock Float) :
    (b.loadAll v).1.failures v = b.failures v := by
  have hagain : ∀ n rs, (loadFrom v b.name n (rs.map fun r => (r.load v).1)).2.2 =
      (loadFrom v b.name n rs).2.2 := by
    intro n rs
    induction rs generalizing n with
    | nil => rfl
    | cons r rs ih =>
      rw [List.map_cons, failures_loadFrom_cons, failures_loadFrom_cons, ih,
        (Rule.load_congr v (Rule.text_load v r)).1]
  rw [fst_loadAll]
  exact hagain 0 b.rules

/-- Unloading the rules before makes no difference. -/
theorem loadAll_unloadAll (v : Vocabulary) (b : RuleBlock Float) : b.unloadAll.loadAll v = b.loadAll v := by
  simp only [loadAll, unloadAll, loadFrom_map_unload]

end RuleBlock

/-! ## §3 The failures of an engine -/

namespace Engine

/-- The failures of loading the rules of all blocks. -/
def failures (e : Engine Float) : List RuleBlock.Failure := e.loadRules.2.2

/-- No rule is left unloaded. -/
def AllLoaded (e : Engine Float) : Prop := ∀ b ∈ e.blocks, ∀ r ∈ b.rules, r.isLoaded = true

instance (e : Engine Float) : Decidable e.AllLoaded :=
  inferInstanceAs (Decidable (∀ b ∈ e.blocks, ∀ r ∈ b.rules, r.isLoaded = true))

/-- Loading changes nothing of an engine but its blocks, each on its own. -/
theorem fst_loadRules (e : Engine Float) :
    e.loadRules.1 = { e with blocks := e.blocks.map fun b => (b.loadAll e.vocabulary).1 } :=
  congrArg (fun bs => { e with blocks := bs }) (fst_loadBlocks e.vocabulary e.blocks)

theorem failures_loadBlocks (v : Vocabulary) (bs : List (RuleBlock Float)) :
    (loadBlocks v bs).2.2 = bs.flatMap (RuleBlock.failures v) := by
  induction bs with
  | nil => rfl
  | cons b bs ih =>
    rw [List.flatMap_cons, ← ih]
    rfl

/-- The failures of the blocks, one block after the other. -/
theorem failures_eq (e : Engine Float) : e.failures = e.blocks.flatMap (RuleBlock.failures e.vocabulary) :=
  failures_loadBlocks e.vocabulary e.blocks

/-- Nothing fails when loading leaves every rule loaded. -/
theorem failures_eq_nil_iff (e : Engine Float) : e.failures = [] ↔ e.loadRules.1.AllLoaded := by
  rw [failures_eq, List.flatMap_eq_nil_iff, AllLoaded, fst_loadRules, List.forall_mem_map]
  refine forall₂_congr fun b _ => ?_
  rw [RuleBlock.failures_eq_nil_iff, rules_loadAll, List.forall_mem_map]
  exact forall₂_congr fun r _ => (Rule.isLoaded_load e.vocabulary r).symm

/-- Loading again fails where it failed before. -/
theorem failures_loadRules (e : Engine Float) : e.loadRules.1.failures = e.failures := by
  have hvocabulary : e.loadRules.1.vocabulary = e.vocabulary := rfl
  rw [failures_eq, failures_eq, hvocabulary, fst_loadRules, List.flatMap_map]
  exact List.flatMap_congr fun b _ => RuleBlock.failures_fst_loadAll e.vocabulary b

/-! ## §4 Lenient and strict builds -/

/-- The engine of a document before its rules are loaded. -/
def prepare (r : TermRegistry) (doc : Value) : Except Error (Engine Float) := do
  let e ← assemble r doc
  let e ← (e.configureBy (settings doc)).value
  (settleTypes ((settings doc).entryOrNone "type") e).value

theorem value_ofDocument (r : TermRegistry) (strict : Bool) (doc : Value) :
    (ofDocument r strict doc).value = prepare r doc >>= fun e => (loadChecked strict e).value := by
  unfold ofDocument prepare
  cases assemble r doc with
  | error err => rfl
  | ok e =>
    have hreport : ∀ e : Engine Float, (reportBuilt e).value = .ok e := fun _ => rfl
    simp only [Outcome.value_andThen, ok_bind, hreport]
    exact bind_pure _

/-- A lenient build keeps what was loaded. -/
theorem value_loadChecked_lenient (e : Engine Float) : (loadChecked false e).value = .ok e.loadRules.1 := rfl

/-- A strict build is stopped when there are failures. -/
theorem value_loadChecked_strict (e : Engine Float) :
    (loadChecked true e).value = checkFailures true e.name e.failures >>= fun _ => .ok e.loadRules.1 := by
  show _ = checkFailures true e.loadRules.1.name e.loadRules.2.2 >>= fun _ => .ok e.loadRules.1
  unfold loadChecked
  obtain ⟨loaded, events, failures⟩ := e.loadRules
  dsimp only
  cases checkFailures true loaded.name failures with
  | ok u => rfl
  | error err => rfl

/-- What a strict build makes of the engine that a lenient build gives. -/
def strictly (e : Engine Float) : Except Error (Engine Float) :=
  checkFailures true e.name e.failures >>= fun _ => .ok e

/-- A strict build is a lenient one and a look at the failures. -/
theorem value_strict (r : TermRegistry) (doc : Value) :
    (ofDocument r true doc).value = (ofDocument r false doc).value >>= strictly := by
  rw [value_ofDocument, value_ofDocument]
  cases prepare r doc with
  | error err => rfl
  | ok e =>
    rw [ok_bind, ok_bind, value_loadChecked_lenient, value_loadChecked_strict, ok_bind, strictly,
      failures_loadRules]
    rfl

/-- What a lenient build gives is loaded, and has the name of the settings. -/
theorem exists_of_lenient {r : TermRegistry} {doc : Value} {e : Engine Float}
    (h : (ofDocument r false doc).value = .ok e) :
    ∃ e₀, prepare r doc = .ok e₀ ∧ e = e₀.loadRules.1 := by
  rw [value_ofDocument] at h
  obtain ⟨e₀, hprepared, hloaded⟩ := bind_eq_ok_iff.1 h
  rw [value_loadChecked_lenient] at hloaded
  exact ⟨e₀, hprepared, (Except.ok.inj hloaded).symm⟩

/-- Nothing fails in a lenient build that leaves every rule loaded. -/
theorem failures_eq_nil_of_lenient {r : TermRegistry} {doc : Value} {e : Engine Float}
    (h : (ofDocument r false doc).value = .ok e) : e.failures = [] ↔ e.AllLoaded := by
  obtain ⟨e₀, -, rfl⟩ := exists_of_lenient h
  rw [failures_loadRules, failures_eq_nil_iff]

/-- What adding leaves alone is left alone by adding what tables describe. -/
theorem eq_of_foldlM {ι β : Type} (add : Engine Float → ι → Engine Float) (get : Engine Float → β)
    {describe : Engine Float → Value → Except Error ι} (hadd : ∀ e x, get (add e x) = get e)
    {ts : List Value} {e e' : Engine Float} (h : ts.foldlM (fun e t => add e <$> describe e t) e = .ok e') :
    get e' = get e := by
  refine invariant_of_foldlM (P := fun u => get u = get e) (fun e₁ t e₂ he hstep => ?_) rfl h
  obtain ⟨x, -, rfl⟩ := map_eq_ok_iff.1 hstep
  rw [hadd, he]

theorem name_assemble {r : TermRegistry} {doc : Value} {e : Engine Float} (h : assemble r doc = .ok e) :
    e.name = (settings doc).label := by
  obtain ⟨e₁, hinputs, h⟩ := bind_eq_ok_iff.1 h
  obtain ⟨e₂, houtputs, hblocks⟩ := bind_eq_ok_iff.1 h
  calc e.name
    _ = e₂.name := eq_of_foldlM addBlock Engine.name (fun _ _ => rfl) hblocks
    _ = e₁.name := eq_of_foldlM addOutput Engine.name (fun _ _ => rfl) houtputs
    _ = (settings doc).label :=
      eq_of_foldlM addInput Engine.name (fun _ _ => rfl) hinputs

theorem name_configureBy {e e' : Engine Float} {s : Value} (h : (e.configureBy s).value = .ok e') :
    e'.name = e.name := by
  unfold configureBy configure at h
  split at h
  · cases h
  · split at h
    · cases h
    · rw [Outcome.value_andThen, Outcome.value_map] at h
      obtain ⟨e₁, hequipped, h⟩ := bind_eq_ok_iff.1 h
      obtain ⟨ws, -, rfl⟩ := map_eq_ok_iff.1 hequipped
      cases h
      rfl

theorem name_settleTypes {name : Value} {e e' : Engine Float} (h : (settleTypes name e).value = .ok e') :
    e'.name = e.name := by
  unfold settleTypes at h
  split at h
  · cases h
    rfl
  · split at h
    · cases h
    · cases h
      rfl

theorem name_prepare {r : TermRegistry} {doc : Value} {e : Engine Float} (h : prepare r doc = .ok e) :
    e.name = (settings doc).label := by
  obtain ⟨e₁, hassembled, h⟩ := bind_eq_ok_iff.1 h
  obtain ⟨e₂, hconfigured, hsettled⟩ := bind_eq_ok_iff.1 h
  rw [name_settleTypes hsettled, name_configureBy hconfigured, name_assemble hassembled]

/-- A lenient build that leaves a rule unloaded becomes an error when it is strict. -/
theorem value_strict_of_not_allLoaded {r : TermRegistry} {doc : Value}
    (hname : (settings doc).label.isWritable = true) {e : Engine Float}
    (h : (ofDocument r false doc).value = .ok e) (hunloaded : ¬e.AllLoaded) :
    (ofDocument r true doc).value = .error (.configuration
      (.rulesFailed (settings doc).label.asText (e.failures.map RuleBlock.failureText))) := by
  have hfailures : e.failures ≠ [] := fun hnil => hunloaded ((failures_eq_nil_of_lenient h).1 hnil)
  obtain ⟨e₀, hprepared, rfl⟩ := exists_of_lenient h
  have hlabel : e₀.loadRules.1.name = (settings doc).label := (name_prepare hprepared :)
  have hwritten : (settings doc).label.written = .ok (settings doc).label.asText := if_pos hname
  rw [value_strict, h, ok_bind, strictly, checkFailures, hlabel, hwritten]
  rw [if_pos (by simpa using hfailures)]
  rfl

/-- A strict build gives what a lenient one gives, when no rule is left unloaded. -/
theorem value_strict_eq_ok_iff {r : TermRegistry} {doc : Value} {e : Engine Float} :
    (ofDocument r true doc).value = .ok e ↔ (ofDocument r false doc).value = .ok e ∧ e.AllLoaded := by
  rw [value_strict, bind_eq_ok_iff]
  constructor
  · rintro ⟨e₀, hlenient, hstrict⟩
    obtain ⟨_, hchecked, hsame⟩ := bind_eq_ok_iff.1 hstrict
    cases hsame
    refine ⟨hlenient, (failures_eq_nil_of_lenient hlenient).1 ?_⟩
    by_contra hfailures
    -- where something failed, the name is written into an error
    rw [checkFailures, if_pos (by simpa using hfailures)] at hchecked
    obtain ⟨_, -, hthrown⟩ := bind_eq_ok_iff.1 hchecked
    cases hthrown
  · rintro ⟨hlenient, hloaded⟩
    refine ⟨e, hlenient, ?_⟩
    rw [strictly, (failures_eq_nil_of_lenient hlenient).2 hloaded]
    rfl

end Engine

/-- An error of the configuration; that of a rule is one, too. -/
def Error.IsConfiguration : Error → Prop
  | .configuration _ | .rule _ => True
  | _ => False

namespace Engine

/-- A document of two rules, the first of which has no term in its consequent. -/
def maimedDocument : Value :=
  .table
    [("input", .list [.table
        [("name", .text "Ambient"), ("terms", .list [.table
          [("type", .text "Rectangle"), ("name", .text "DARK"),
            ("parameters", .list [.float 0.0, .float 0.5])]])]]),
      ("output", .list [.table
        [("name", .text "Power"), ("terms", .list [.table
          [("type", .text "Constant"), ("name", .text "HIGH"), ("parameters", .list [.float 1.5])]])]]),
      ("rule_block", .list [.table
        [("rules", .list
          [.text "if Ambient is DARK then Power is", .text "if Ambient is DARK then Power is HIGH"])]])]

end Engine

end FuzzyInference
