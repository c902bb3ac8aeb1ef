import FuzzyInference.Engine.Document
import FuzzyInference.Proofs.Reading
import FuzzyInference.Proofs.Runs
import Mathlib.Data.List.Nodup
import Mathlib.Data.List.Perm.Basic

/-!
# Engines that are assembled

An engine is assembled by edits: variables, terms, blocks and rules are added, inserted and removed, and rules
are loaded, reloaded and unloaded. Of the variables in one list, whether inputs or outputs, an edit does one
of four things: it leaves them as they are, adds one, takes one away, or changes the terms of one. What is
added gets an identity that was not given out before.

The plan of this module:

* edits, and engines that are assembled by them;
* propositions that the variables of an engine define, and edits that drop what a proposition refers to;
* the four effects, and one lemma for each kind of edit that it has one of them;
* what a document describes is assembled by edits.

## Main statements

* `Engine.defines_of_offers`: what rules can speak of is defined
* `Engine.effect_edit`: what an edit does to the variables
* `Engine.exists_edits_of_assemble`: the engine of a document
-/

namespace FuzzyInference

open Checked

/-! ## §1 Edits -/

/-- Where something new is put. -/
inductive Place
  | last
  | before (i : Int)

/-- A variable by its kind and its name or position. -/
inductive Selector
  | input (key : Key)
  | output (key : Key)

/-- The terms of a variable have identities of their own, and those that it will give out are new. -/
structure Variable.IsNumbered (v : Variable Float) : Prop where
  distinct : (v.terms.map Term.id).Nodup
  below : ∀ t ∈ v.terms, t.id < v.nextTerm

/-- A change to an engine. What is added is new, so a rule given by its text is not loaded; a block may bring
rules that are. -/
inductive Edit
  | addVariable (v : AnyVariable Float) (numbered : v.base.IsNumbered) (place : Place)
  | removeVariable (s : Selector)
  | addTerm (s : Selector) (t : Term Float) (place : Place)
  | removeTerm (s : Selector) (key : Key)
  | addBlock (b : RuleBlock Float) (place : Place)
  | removeBlock (key : Key)
  | addRule (block : Key) (text : String) (place : Place)
  | removeRule (block : Key) (i : Int)
  | load (rs : Rules)
  | reload (rs : Rules)
  | unload (rs : Rules)

namespace Edit

/-- The edit is about variables and terms. -/
def ofVariables : Edit → Bool
  | .addVariable .. | .removeVariable _ | .addTerm .. | .removeTerm .. => true
  | _ => false

/-- The edit adds a block that holds the rule. -/
def Brings (r : Rule Float) : Edit → Prop
  | .addBlock b _ => r ∈ b.rules
  | _ => False

end Edit

namespace Variable

/-- Adds or inserts a term. -/
def putTerm (v : Variable Float) (t : Term Float) : Place → Except Error (Variable Float)
  | .last => v.addTerm t
  | .before i => v.insertTerm t i

/-- Removes a term. -/
def dropTerm (v : Variable Float) (key : Key) : Except Error (Variable Float) :=
  Prod.snd <$> v.removeTerm key

end Variable

namespace RuleBlock

/-- Adds or inserts a rule given by its text. -/
def putRule (b : RuleBlock Float) (text : String) : Place → Except Error (RuleBlock Float)
  | .last => .ok (b.addRule text)
  | .before i => liftM (b.insertRule text i)

/-- Removes a rule. -/
def dropRule (b : RuleBlock Float) (i : Int) : Except Error (RuleBlock Float) :=
  Prod.snd <$> b.removeRule i

end RuleBlock

namespace Engine

/-- The variable that is meant. -/
def select (e : Engine Float) : Selector → Except Error (AnyVariable Float)
  | .input key => .input <$> e.input key
  | .output key => .output <$> e.output key

/-- Adds or inserts a variable. -/
def putVariable (e : Engine Float) : AnyVariable Float → Place → Except Error (Engine Float)
  | .input v, .last => .ok (e.addInput v)
  | .input v, .before i => liftM (e.insertInput v i)
  | .output v, .last => .ok (e.addOutput v)
  | .output v, .before i => liftM (e.insertOutput v i)

/-- Removes a variable. -/
def dropVariable (e : Engine Float) : Selector → Except Error (Engine Float)
  | .input key => Prod.snd <$> e.removeInput key
  | .output key => Prod.snd <$> e.removeOutput key

/-- Changes the terms of a variable. -/
def changeTerms (e : Engine Float) (s : Selector) (f : Variable Float → Except Error (Variable Float)) :
    Except Error (Engine Float) := do
  let v ← e.select s
  let w ← f v.base
  return e.modifyVariable v fun _ => w

/-- Adds or inserts a block. -/
def putBlock (e : Engine Float) (b : RuleBlock Float) : Place → Except Error (Engine Float)
  | .last => .ok (e.addBlock b)
  | .before i => liftM (e.insertBlock b i)

/-- Changes the rules of a block. -/
def changeRules (e : Engine Float) (key : Key) (f : RuleBlock Float → Except Error (RuleBlock Float)) :
    Except Error (Engine Float) := do
  let i ← e.blockIndex key
  let b ← e.block key
  let c ← f b
  return e.modifyBlock i fun _ => c

/-- The engine after an edit, unless it is refused. -/
def attempt (e : Engine Float) : Edit → Except Error (Engine Float)
  | .addVariable v _ place => e.putVariable v place
  | .removeVariable s => e.dropVariable s
  | .addTerm s t place => e.changeTerms s fun v => v.putTerm t place
  | .removeTerm s key => e.changeTerms s fun v => v.dropTerm key
  | .addBlock b place => e.putBlock b place
  | .removeBlock key => Prod.snd <$> e.removeBlock key
  | .addRule block text place => e.changeRules block fun b => b.putRule text place
  | .removeRule block i => e.changeRules block fun b => b.dropRule i
  | .load rs => .ok (e.perform (.load rs))
  | .reload rs => .ok ((e.perform (.unload rs)).perform (.load rs))
  | .unload rs => .ok (e.perform (.unload rs))

/-- The engine after an edit. One that is refused changes nothing. -/
def edit (e : Engine Float) (d : Edit) : Engine Float :=
  match e.attempt d with
  | .ok e' => e'
  | .error _ => e

/-- The engine after edits, one after the other. -/
def edited (e : Engine Float) (ds : List Edit) : Engine Float := ds.foldl edit e

@[simp] theorem edited_nil (e : Engine Float) : e.edited [] = e := rfl

@[simp] theorem edited_concat (e : Engine Float) (ds : List Edit) (d : Edit) :
    e.edited (ds ++ [d]) = (e.edited ds).edit d := by
  simp [edited]

theorem edited_append (e : Engine Float) (ds ds' : List Edit) :
    e.edited (ds ++ ds') = (e.edited ds).edited ds' :=
  List.foldl_append

/-- The engine that edits make of an empty one. -/
def assembled (name : Name) (ds : List Edit) : Engine Float := (empty name).edited ds

end Engine

/-! ## §2 References -/

/-- The reference to a term. -/
def Term.ref (t : Term Float) : TermRef := ⟨t.id, t.name.asText⟩

/-- The references to the terms of a variable. -/
def Variable.termRefs (v : Variable Float) : List TermRef := v.terms.map Term.ref

/-- One variable stands for another: the terms with certain references are gone, and new ones may have
come. -/
structure Variable.Retermed (v w : Variable Float) (gone : TermRef → Prop) : Prop where
  id : w.id = v.id
  name : w.name = v.name
  numbered : v.IsNumbered → w.IsNumbered
  nextTerm : v.nextTerm ≤ w.nextTerm
  terms : v.IsNumbered →
    ∀ t : TermRef, t.id < v.nextTerm → (t ∈ w.termRefs ↔ t ∈ v.termRefs ∧ ¬gone t)

namespace AnyVariable

def isOutput : AnyVariable Float → Bool
  | input _ => false
  | output _ => true

/-- The reference to a variable. -/
def ref (v : AnyVariable Float) : VariableRef := ⟨v.base.id, v.base.name.asText, v.isOutput⟩

/-- The variable with another base. -/
def withBase : AnyVariable Float → Variable Float → AnyVariable Float
  | input _, w => input w
  | output v, w => output (v.modify fun _ => w)

@[simp] theorem base_withBase (v : AnyVariable Float) (w : Variable Float) : (v.withBase w).base = w := by
  cases v <;> rfl

@[simp] theorem isOutput_withBase (v : AnyVariable Float) (w : Variable Float) :
    (v.withBase w).isOutput = v.isOutput := by
  cases v <;> rfl

/-- The variable as rules can speak of it. -/
def entry (v : AnyVariable Float) : VocabularyEntry := ⟨v.ref, v.base.termRefs⟩

end AnyVariable

namespace Engine

/-- Inputs and outputs in one list. -/
def membersOf (vs : List (Variable Float)) (ws : List (OutputVariable Float)) : List (AnyVariable Float) :=
  vs.map .input ++ ws.map .output

/-- The variables of the engine. -/
def members (e : Engine Float) : List (AnyVariable Float) := membersOf e.inputs e.outputs

/-- The proposition is about one of the engine's variables and one of its terms, or matches whatever the term
is. -/
def Defines (e : Engine Float) (p : Proposition) : Prop := ∃ v ∈ e.members, v.entry.Covers p

instance (e : Engine Float) (p : Proposition) : Decidable (e.Defines p) :=
  inferInstanceAs (Decidable (∃ v ∈ e.members, v.entry.Covers p))

/-- What rules can speak of are the variables of the engine and their terms. -/
theorem defines_of_offers {e : Engine Float} {p : Proposition} (h : e.vocabulary.Offers p) :
    e.Defines p := by
  obtain ⟨entry, hentry, href, hterm⟩ := h
  -- a vocabulary may leave out terms, for their names
  have hcovers : ∀ v : AnyVariable Float, v ∈ e.members →
      Variables.entry Name.isText v.base v.isOutput = entry → e.Defines p := by
    rintro v hv rfl
    refine ⟨v, hv, href, ?_⟩
    cases hp : p.term with
    | none =>
      rw [hp] at hterm
      exact hterm
    | some t =>
      rw [hp] at hterm
      obtain ⟨u, hu, rfl⟩ := List.mem_map.1 hterm
      exact List.mem_map_of_mem (List.mem_filter.1 hu).1
  rcases List.mem_append.1 hentry with hentry | hentry
  · obtain ⟨v, hv, heq⟩ := List.mem_map.1 hentry
    exact hcovers (.input v) (List.mem_append_left _ (List.mem_map_of_mem (List.mem_filter.1 hv).1)) heq
  · obtain ⟨v, hv, heq⟩ := List.mem_map.1 hentry
    exact hcovers (.output v) (List.mem_append_right _ (List.mem_map_of_mem (List.mem_filter.1 hv).1)) heq

/-- The edit removes what the proposition refers to. -/
def Drops (e : Engine Float) (p : Proposition) : Edit → Prop
  | .removeVariable s => ∃ v, e.select s = .ok v ∧ v.ref = p.subject
  | .removeTerm s key =>
    ∃ v t, e.select s = .ok v ∧ v.ref = p.subject ∧ v.base.termOf key = .ok t ∧ p.term = some t.ref
  | _ => False

/-! ## §3 Effects on the variables -/

/-- The variables of the engine have identities of their own, and those that it will give out are new. -/
structure IsNumbered (e : Engine Float) : Prop where
  distinct : (e.members.map fun v => v.base.id).Nodup
  below : ∀ v ∈ e.members, v.base.id < e.store.nextId
  terms : ∀ v ∈ e.members, v.base.IsNumbered

/-- What an edit can do to the variables, and which propositions lose what they refer to. -/
inductive Effect (e : Engine Float) : Engine Float → (Proposition → Prop) → Prop
  /-- The variables stay as they are. -/
  | keeps {e' drops} (store : e'.store = e.store) (hdrops : ∀ p, ¬drops p) : Effect e e' drops
  /-- There is one more variable. -/
  | adds {e' drops} (v : AnyVariable Float) (id : v.base.id = e.store.nextId) (numbered : v.base.IsNumbered)
      (members : e'.members.Perm (v :: e.members)) (nextId : e'.store.nextId = e.store.nextId + 1)
      (hdrops : ∀ p, ¬drops p) : Effect e e' drops
  /-- There is one variable less. -/
  | removes {e' drops} (v : AnyVariable Float) (members : e.members.Perm (v :: e'.members))
      (nextId : e'.store.nextId = e.store.nextId) (hdrops : ∀ p, drops p ↔ v.ref = p.subject) :
      Effect e e' drops
  /-- One variable has other terms. -/
  | reterms {e' drops} (v : AnyVariable Float) (w : Variable Float) (gone : TermRef → Prop)
      (rest : List (AnyVariable Float)) (hw : v.base.Retermed w gone) (before : e.members.Perm (v :: rest))
      (after : e'.members.Perm (v.withBase w :: rest)) (nextId : e'.store.nextId = e.store.nextId)
      (hdrops : ∀ p, drops p ↔ v.ref = p.subject ∧ ∃ t, p.term = some t ∧ gone t) : Effect e e' drops

end Engine

/-! ## §4 Lists and terms -/

/-- What is found by a key stands at the index of the key. -/
theorem Collection.exists_find_of_get {ι : Type} {c : Collection} {nameOf : ι → Name} {xs : List ι}
    {key : Key} {x : ι} (h : c.get nameOf xs key = .ok x) :
    ∃ i, c.find nameOf xs key = .ok i ∧ xs[i]? = some x := by
  obtain ⟨i, hi, hx⟩ := bind_eq_ok_iff.1 h
  refine ⟨i, hi, ?_⟩
  split at hx
  · rename_i y hy
    cases hx
    exact hy
  · cases hx

/-- An insertion that is not refused has its result. -/
theorem Position.eq_of_check {ι : Type} {i : Int} {x y : ι}
    (h : (liftM (do Position.check i; return x : Except Fault ι) : Except Error ι) = .ok y) : x = y := by
  obtain ⟨_, -, hx⟩ := bind_eq_ok_iff.1 (liftM_eq_ok_iff.1 h)
  exact Except.ok.inj hx

/-- A removal that is not refused has found something and has its result. -/
theorem exists_of_removal {ε ι κ σ : Type} {found : Except ε ι} {got : ι → Except ε κ}
    {result : ι → κ → κ × σ} {s : σ}
    (h : Prod.snd <$> (do let i ← found; let x ← got i; return result i x) = .ok s) :
    ∃ i x, found = .ok i ∧ got i = .ok x ∧ (result i x).2 = s := by
  obtain ⟨p, hp, rfl⟩ := map_eq_ok_iff.1 h
  obtain ⟨i, hi, hp⟩ := bind_eq_ok_iff.1 hp
  obtain ⟨x, hx, hp⟩ := bind_eq_ok_iff.1 hp
  cases hp
  exact ⟨i, x, hi, hx, rfl⟩

theorem Position.insert_perm {ι : Type} (xs : List ι) (i : Int) (x : ι) :
    (Position.insert xs i x).Perm (x :: xs) :=
  List.perm_insertIdx x xs (Nat.min_le_right _ _)

theorem perm_cons_eraseIdx {ι : Type} {xs : List ι} {i : Nat} {x : ι} (h : xs[i]? = some x) :
    xs.Perm (x :: xs.eraseIdx i) := by
  obtain ⟨hi, rfl⟩ := List.getElem?_eq_some_iff.1 h
  exact (List.getElem_cons_eraseIdx_perm hi).symm

/-- Changing the items with the key of an item changes this item only, where keys are distinct. -/
theorem exists_perm_map_of_nodup {ι : Type} {key : ι → Nat} {xs : List ι} {x : ι} (hx : x ∈ xs)
    (hdistinct : (xs.map key).Nodup) (f : ι → ι) :
    ∃ rest, xs.Perm (x :: rest) ∧
      (xs.map fun y => if key y == key x then f y else y).Perm (f x :: rest) := by
  obtain ⟨before, after, rfl⟩ := List.append_of_mem hx
  rw [List.map_append, List.map_cons, List.nodup_append] at hdistinct
  obtain ⟨-, hafter, hbefore⟩ := hdistinct
  have hsame : ∀ ys : List ι, (∀ y ∈ ys, key y ≠ key x) →
      (ys.map fun y => if key y == key x then f y else y) = ys := by
    intro ys hys
    refine (List.map_congr_left fun y hy => ?_).trans (List.map_id ys)
    rw [if_neg (by simpa using hys y hy), id]
  refine ⟨before ++ after, List.perm_middle, ?_⟩
  rw [List.map_append, List.map_cons, if_pos (beq_self_eq_true _)]
  rw [hsame before fun y hy => hbefore _ (List.mem_map_of_mem hy) _ List.mem_cons_self]
  rw [hsame after fun y hy heq => (List.nodup_cons.1 hafter).1 (heq ▸ List.mem_map_of_mem hy)]
  exact List.perm_middle

namespace Variable

theorem placeTerm_eq_ok {v w : Variable Float} {t : Term Float}
    {place : Term Float → List (Term Float) → List (Term Float)} (h : v.placeTerm t place = .ok w) :
    w = { v with terms := place { t with id := v.nextTerm } v.terms, nextTerm := v.nextTerm + 1 } := by
  unfold placeTerm at h
  split at h
  · -- the error of a name that is taken may be another one, when the name is too long
    obtain ⟨name, -, h⟩ := bind_eq_ok_iff.1 h
    obtain ⟨name', -, h⟩ := bind_eq_ok_iff.1 h
    cases h
  · cases h
    rfl

/-- A term that is added gets an identity that none had before. -/
theorem retermed_placeTerm {v : Variable Float} {t : Term Float} {ts : List (Term Float)}
    (hts : ts.Perm ({ t with id := v.nextTerm } :: v.terms)) :
    v.Retermed { v with terms := ts, nextTerm := v.nextTerm + 1 } fun _ => False where
  id := rfl
  name := rfl
  numbered hv := by
    constructor
    · -- the new identity is above all that were given out
      refine (hts.map Term.id).nodup_iff.2 (List.nodup_cons.2 ⟨fun hmem => ?_, hv.distinct⟩)
      obtain ⟨u, hu, hid⟩ := List.mem_map.1 hmem
      exact absurd hid (Nat.ne_of_lt (hv.below u hu))
    · intro u hu
      rcases List.mem_cons.1 (hts.mem_iff.1 hu) with rfl | hu
      · exact Nat.lt_succ_self _
      · exact Nat.lt_succ_of_lt (hv.below u hu)
  nextTerm := Nat.le_succ _
  terms hv r hr := by
    have hmem : r ∈ ts.map Term.ref ↔ r ∈ v.termRefs := by
      rw [(hts.map Term.ref).mem_iff, List.map_cons, List.mem_cons]
      refine or_iff_right fun heq => ?_
      rw [heq] at hr
      exact absurd hr (Nat.lt_irrefl _)
    exact hmem.trans (and_iff_left not_false).symm

theorem retermed_putTerm {v w : Variable Float} {t : Term Float} {place : Place}
    (h : v.putTerm t place = .ok w) : v.Retermed w fun _ => False := by
  cases place with
  | last =>
    have hplace : v.placeTerm t (fun t ts => ts ++ [t]) = .ok w := h
    rw [placeTerm_eq_ok hplace]
    exact retermed_placeTerm (List.perm_append_singleton _ _)
  | before i =>
    obtain ⟨w', hw', h⟩ := bind_eq_ok_iff.1 h
    obtain ⟨_, -, h⟩ := bind_eq_ok_iff.1 h
    cases h
    rw [placeTerm_eq_ok hw']
    exact retermed_placeTerm (Position.insert_perm _ _ _)

theorem mem_of_termOf {v : Variable Float} {key : Key} {t : Term Float} (h : v.termOf key = .ok t) :
    t ∈ v.terms := by
  cases key with
  | name n =>
    simp only [termOf, term] at h
    split at h
    · rename_i u hu
      cases h
      exact List.mem_of_find?_eq_some hu
    · cases h
  | position i =>
    simp only [termOf, termAt] at h
    split at h
    · rename_i u hu
      cases h
      split at hu
      · cases hu
      · exact List.mem_of_getElem? hu
    · cases h

/-- The variable without a term. -/
theorem dropTerm_eq {v : Variable Float} {key : Key} {t : Term Float} (h : v.termOf key = .ok t) :
    v.dropTerm key = .ok { v with
      terms := v.terms.filter fun u => u.id != t.id
      removedTerms := v.removedTerms ++ [t] } := by
  rw [dropTerm, removeTerm, h]
  rfl

theorem dropTerm_error {v : Variable Float} {key : Key} {err : Error}
    (h : v.termOf key = .error err) : v.dropTerm key = .error err := by
  rw [dropTerm, removeTerm, h]
  rfl

theorem retermed_dropTerm {v : Variable Float} {t : Term Float} (ht : t ∈ v.terms)
    (removed : List (Term Float)) :
    v.Retermed { v with terms := v.terms.filter fun u => u.id != t.id, removedTerms := removed }
      fun r => r = t.ref where
  id := rfl
  name := rfl
  numbered hv :=
    ⟨hv.distinct.sublist (List.filter_sublist.map _), fun u hu => hv.below u (List.mem_filter.1 hu).1⟩
  nextTerm := Nat.le_refl _
  terms hv r _ := by
    constructor
    · intro hr
      obtain ⟨u, hu, rfl⟩ := List.mem_map.1 hr
      obtain ⟨hu, hne⟩ := List.mem_filter.1 hu
      refine ⟨List.mem_map_of_mem hu, fun heq => ?_⟩
      have hid : u.id = t.id := congrArg TermRef.id heq
      exact absurd hid (by simpa using hne)
    · rintro ⟨hr, hne⟩
      obtain ⟨u, hu, rfl⟩ := List.mem_map.1 hr
      refine List.mem_map_of_mem (List.mem_filter.2 ⟨hu, ?_⟩)
      -- a term with the identity of the removed one is the removed one
      have hid : u.id ≠ t.id := fun hid => by
        obtain rfl : u = t := List.inj_on_of_nodup_map hv.distinct hu ht hid
        exact hne rfl
      simpa using hid

end Variable

/-! ## §5 Variables -/

namespace Engine

theorem mem_of_select {e : Engine Float} {s : Selector} {v : AnyVariable Float} (h : e.select s = .ok v) :
    v ∈ e.members := by
  cases s with
  | input key =>
    obtain ⟨u, hu, rfl⟩ := map_eq_ok_iff.1 h
    obtain ⟨i, -, hi⟩ := Collection.exists_find_of_get hu
    exact List.mem_append_left _ (List.mem_map_of_mem (List.mem_of_getElem? hi))
  | output key =>
    obtain ⟨u, hu, rfl⟩ := map_eq_ok_iff.1 h
    obtain ⟨i, -, hi⟩ := Collection.exists_find_of_get hu
    exact List.mem_append_right _ (List.mem_map_of_mem (List.mem_of_getElem? hi))

theorem perm_membersOf_inputs {vs us : List (Variable Float)} {v : Variable Float} (h : vs.Perm (v :: us))
    (ws : List (OutputVariable Float)) : (membersOf vs ws).Perm (.input v :: membersOf us ws) :=
  (h.map AnyVariable.input).append_right _

theorem perm_membersOf_outputs {ws us : List (OutputVariable Float)} {w : OutputVariable Float}
    (h : ws.Perm (w :: us)) (vs : List (Variable Float)) :
    (membersOf vs ws).Perm (.output w :: membersOf vs us) :=
  ((h.map AnyVariable.output).append_left _).trans List.perm_middle

/-- The variable with the identity that is given out next. -/
def numberedNext (e : Engine Float) (v : AnyVariable Float) : AnyVariable Float :=
  v.withBase { v.base with id := e.store.nextId }

theorem perm_putVariable {e e' : Engine Float} {v : AnyVariable Float} {place : Place}
    (h : e.putVariable v place = .ok e') :
    e'.members.Perm (e.numberedNext v :: e.members) ∧ e'.store.nextId = e.store.nextId + 1 := by
  cases v with
  | input v =>
    cases place with
    | last =>
      cases h
      exact ⟨perm_membersOf_inputs (List.perm_append_singleton _ _) _, rfl⟩
    | before i =>
      obtain rfl := Position.eq_of_check h
      exact ⟨perm_membersOf_inputs (Position.insert_perm _ _ _) _, rfl⟩
  | output v =>
    cases place with
    | last =>
      cases h
      exact ⟨perm_membersOf_outputs (List.perm_append_singleton _ _) _, rfl⟩
    | before i =>
      obtain rfl := Position.eq_of_check h
      exact ⟨perm_membersOf_outputs (Position.insert_perm _ _ _) _, rfl⟩

/-- A variable that is found can be removed. -/
theorem perm_dropVariable {e : Engine Float} {s : Selector} {v : AnyVariable Float}
    (h : e.select s = .ok v) :
    ∃ e', e.dropVariable s = .ok e' ∧ e.members.Perm (v :: e'.members) ∧
      e'.store.nextId = e.store.nextId := by
  cases s with
  | input key =>
    obtain ⟨u, hu, rfl⟩ := map_eq_ok_iff.1 h
    obtain ⟨i, hfind, hi⟩ := Collection.exists_find_of_get hu
    -- removing looks for the variable and then gets it, which succeeds together
    rw [dropVariable, removeInput, hfind, hu]
    exact ⟨_, rfl, perm_membersOf_inputs (perm_cons_eraseIdx hi) _, rfl⟩
  | output key =>
    obtain ⟨u, hu, rfl⟩ := map_eq_ok_iff.1 h
    obtain ⟨i, hfind, hi⟩ := Collection.exists_find_of_get hu
    rw [dropVariable, removeOutput, hfind, hu]
    exact ⟨_, rfl, perm_membersOf_outputs (perm_cons_eraseIdx hi) _, rfl⟩

/-- A variable that is removed is found. -/
theorem exists_select_of_dropVariable {e e' : Engine Float} {s : Selector} (h : e.dropVariable s = .ok e') :
    ∃ v, e.select s = .ok v := by
  cases s with
  | input key =>
    obtain ⟨i, u, -, hu, -⟩ := exists_of_removal h
    exact ⟨.input u, map_eq_ok_iff.2 ⟨u, hu, rfl⟩⟩
  | output key =>
    obtain ⟨i, u, -, hu, -⟩ := exists_of_removal h
    exact ⟨.output u, map_eq_ok_iff.2 ⟨u, hu, rfl⟩⟩

/-- Changing a variable by its identity changes no other one. -/
theorem perm_modifyVariable {e : Engine Float} (he : e.IsNumbered) {v : AnyVariable Float}
    (hv : v ∈ e.members) (w : Variable Float) :
    ∃ rest, e.members.Perm (v :: rest) ∧
      (e.modifyVariable v fun _ => w).members.Perm (v.withBase w :: rest) := by
  -- the store changes inputs and outputs apart, so that it takes distinct identities within each list only
  have hdistinct := he.distinct
  rw [members, membersOf, List.map_append, List.map_map, List.map_map, List.nodup_append] at hdistinct
  rcases List.mem_append.1 hv with hv | hv
  · obtain ⟨u, hu, rfl⟩ := List.mem_map.1 hv
    obtain ⟨rest, hbefore, hafter⟩ := exists_perm_map_of_nodup hu hdistinct.1 fun _ => w
    exact ⟨membersOf rest e.outputs, perm_membersOf_inputs hbefore _, perm_membersOf_inputs hafter _⟩
  · obtain ⟨u, hu, rfl⟩ := List.mem_map.1 hv
    obtain ⟨rest, hbefore, hafter⟩ := exists_perm_map_of_nodup hu hdistinct.2.1 fun o => o.modify fun _ => w
    exact ⟨membersOf e.inputs rest, perm_membersOf_outputs hbefore _, perm_membersOf_outputs hafter _⟩

/-! ## §6 The effect of an edit -/

theorem edit_of_ok {e e' : Engine Float} {d : Edit} (h : e.attempt d = .ok e') : e.edit d = e' := by
  rw [edit, h]

theorem edit_of_error {e : Engine Float} {d : Edit} {err : Error} (h : e.attempt d = .error err) :
    e.edit d = e := by
  rw [edit, h]

/-- An edit that does not reach the variables, or is refused. -/
theorem store_edit {e : Engine Float} {d : Edit} (h : ∀ e', e.attempt d = .ok e' → e'.store = e.store) :
    (e.edit d).store = e.store := by
  cases hd : e.attempt d with
  | ok e' =>
    rw [edit_of_ok hd]
    exact h e' hd
  | error err => rw [edit_of_error hd]

@[simp] theorem store_load (e : Engine Float) (rs : Rules) : (e.perform (.load rs)).store = e.store := by
  cases rs <;> rfl

@[simp] theorem store_unload (e : Engine Float) (rs : Rules) : (e.perform (.unload rs)).store = e.store := by
  cases rs <;> rfl

theorem store_changeRules {e e' : Engine Float} {key : Key}
    {f : RuleBlock Float → Except Error (RuleBlock Float)} (h : e.changeRules key f = .ok e') :
    e'.store = e.store := by
  obtain ⟨i, -, h⟩ := bind_eq_ok_iff.1 h
  obtain ⟨b, -, h⟩ := bind_eq_ok_iff.1 h
  obtain ⟨c, -, h⟩ := bind_eq_ok_iff.1 h
  cases h
  rfl

/-- Edits of blocks and rules leave the variables alone. -/
theorem store_edit_of_rules (e : Engine Float) {d : Edit} (hd : d.ofVariables = false) :
    (e.edit d).store = e.store := by
  refine store_edit fun e' h => ?_
  cases d with
  | addVariable | removeVariable | addTerm | removeTerm => cases hd
  | addBlock b place =>
    cases place with
    | last =>
      cases h
      rfl
    | before i =>
      obtain rfl := Position.eq_of_check h
      rfl
  | removeBlock key =>
    obtain ⟨i, b, -, -, rfl⟩ := exists_of_removal h
    rfl
  | addRule | removeRule => exact store_changeRules h
  | load rs =>
    cases h
    exact store_load e rs
  | reload rs =>
    cases h
    rw [store_load, store_unload]
  | unload rs =>
    cases h
    exact store_unload e rs

/-- Edits that change the terms of a variable. -/
theorem effect_changeTerms {e : Engine Float} (he : e.IsNumbered) {d : Edit} {s : Selector}
    {f : Variable Float → Except Error (Variable Float)} (hd : e.attempt d = e.changeTerms s f)
    (hrefused : ∀ err, e.changeTerms s f = .error err → ∀ p, ¬e.Drops p d)
    (hchanged : ∀ v w, e.select s = .ok v → f v.base = .ok w → ∃ gone, v.base.Retermed w gone ∧
      ∀ p, e.Drops p d ↔ v.ref = p.subject ∧ ∃ t, p.term = some t ∧ gone t) :
    Effect e (e.edit d) fun p => e.Drops p d := by
  cases h : e.changeTerms s f with
  | error err =>
    rw [edit_of_error (hd.trans h)]
    exact .keeps rfl (hrefused err h)
  | ok e' =>
    rw [edit_of_ok (hd.trans h)]
    obtain ⟨v, hv, h⟩ := bind_eq_ok_iff.1 h
    obtain ⟨w, hw, h⟩ := bind_eq_ok_iff.1 h
    cases h
    obtain ⟨gone, hretermed, hdrops⟩ := hchanged v w hv hw
    obtain ⟨rest, hbefore, hafter⟩ := perm_modifyVariable he (mem_of_select hv) w
    refine .reterms v w gone rest hretermed hbefore hafter ?_ hdrops
    cases v <;> rfl

theorem effect_addVariable (e : Engine Float) (v : AnyVariable Float) (hv : v.base.IsNumbered)
    (place : Place) :
    Effect e (e.edit (.addVariable v hv place)) fun p => e.Drops p (.addVariable v hv place) := by
  cases hput : e.attempt (.addVariable v hv place) with
  | error err =>
    rw [edit_of_error hput]
    exact .keeps rfl fun _ => id
  | ok e' =>
    rw [edit_of_ok hput]
    obtain ⟨hmembers, hnext⟩ := perm_putVariable hput
    refine .adds (e.numberedNext v) ?_ ?_ hmembers hnext fun _ => id
    · rw [numberedNext, AnyVariable.base_withBase]
    · rw [numberedNext, AnyVariable.base_withBase]
      exact ⟨hv.distinct, hv.below⟩

theorem effect_removeVariable (e : Engine Float) (s : Selector) :
    Effect e (e.edit (.removeVariable s)) fun p => e.Drops p (.removeVariable s) := by
  cases hs : e.select s with
  | error err =>
    -- nothing is found, so nothing can be removed or dropped
    refine .keeps (store_edit fun e' h => ?_) ?_
    · obtain ⟨v, hv⟩ := exists_select_of_dropVariable h
      rw [hs] at hv
      cases hv
    · rintro p ⟨v, hv, -⟩
      rw [hs] at hv
      cases hv
  | ok v =>
    obtain ⟨e', hdrop, hmembers, hnext⟩ := perm_dropVariable hs
    rw [edit_of_ok (d := .removeVariable s) hdrop]
    refine .removes v hmembers hnext fun p => ⟨?_, fun href => ⟨v, hs, href⟩⟩
    rintro ⟨v', hv', href⟩
    rw [hs] at hv'
    cases hv'
    exact href

theorem effect_addTerm {e : Engine Float} (he : e.IsNumbered) (s : Selector) (t : Term Float)
    (place : Place) :
    Effect e (e.edit (.addTerm s t place)) fun p => e.Drops p (.addTerm s t place) := by
  refine effect_changeTerms (f := fun v => v.putTerm t place) he rfl (fun _ _ _ => id) fun v w _ hw => ?_
  exact ⟨_, Variable.retermed_putTerm hw, fun p => by simp [Drops]⟩

theorem effect_removeTerm {e : Engine Float} (he : e.IsNumbered) (s : Selector) (key : Key) :
    Effect e (e.edit (.removeTerm s key)) fun p => e.Drops p (.removeTerm s key) := by
  refine effect_changeTerms (f := fun v => v.dropTerm key) he rfl ?_ fun v w hv hw => ?_
  · -- a term that is found can be removed
    rintro err h p ⟨v, t, hv, -, ht, -⟩
    rw [changeTerms, hv, ok_bind, Variable.dropTerm_eq ht] at h
    cases h
  · cases ht : v.base.termOf key with
    | error err =>
      rw [Variable.dropTerm_error ht] at hw
      cases hw
    | ok t =>
      rw [Variable.dropTerm_eq ht] at hw
      cases hw
      refine ⟨_, Variable.retermed_dropTerm (Variable.mem_of_termOf ht) _, fun p => ⟨?_, ?_⟩⟩
      · rintro ⟨v', t', hv', href, ht', hp⟩
        rw [hv] at hv'
        cases hv'
        rw [ht] at ht'
        cases ht'
        exact ⟨href, _, hp, rfl⟩
      · rintro ⟨href, _, hp, rfl⟩
        exact ⟨v, t, hv, href, ht, hp⟩

/-- Every edit has one of the four effects. -/
theorem effect_edit {e : Engine Float} (he : e.IsNumbered) (d : Edit) :
    Effect e (e.edit d) fun p => e.Drops p d := by
  cases d with
  | addVariable v hv place => exact effect_addVariable e v hv place
  | removeVariable s => exact effect_removeVariable e s
  | addTerm s t place => exact effect_addTerm he s t place
  | removeTerm s key => exact effect_removeTerm he s key
  | _ => exact .keeps (store_edit_of_rules e rfl) fun _ => id

end Engine

/-! ## §7 Engines that documents describe -/

namespace Variable

theorem isNumbered_empty (name : Name) (minimum maximum : Float) :
    (Variable.empty name minimum maximum).IsNumbered :=
  ⟨List.nodup_nil, fun _ ht => absurd ht List.not_mem_nil⟩

theorem isNumbered_addTables {r : TermRegistry} {v w : Variable Float} {ts : List Value}
    (hv : v.IsNumbered) (h : v.addTables r ts = .ok w) : w.IsNumbered := by
  induction ts generalizing v with
  | nil =>
    cases h
    exact hv
  | cons t ts ih =>
    obtain ⟨term, -, h⟩ := bind_eq_ok_iff.1 h
    obtain ⟨u, hu, h⟩ := bind_eq_ok_iff.1 h
    have hput : v.putTerm term .last = .ok u := hu
    exact ih ((retermed_putTerm hput).numbered hv) h

theorem isNumbered_fill {r : TermRegistry} {v w : Variable Float} {t : Value} (hv : v.IsNumbered)
    (h : v.fill r t = .ok w) : w.IsNumbered := by
  unfold fill at h
  refine isNumbered_addTables ?_ h
  exact ⟨hv.distinct, hv.below⟩

theorem isNumbered_ofTable {r : TermRegistry} {t : Value} {v : Variable Float} (h : ofTable r t = .ok v) :
    v.IsNumbered := by
  obtain ⟨name, -, h⟩ := bind_eq_ok_iff.1 h
  obtain ⟨⟨minimum, maximum⟩, -, h⟩ := bind_eq_ok_iff.1 h
  obtain ⟨w, hw, h⟩ := bind_eq_ok_iff.1 h
  have hnumbered := isNumbered_fill (isNumbered_empty name minimum maximum) hw
  -- a value does not touch the terms
  split at h
  · obtain ⟨x, -, h⟩ := bind_eq_ok_iff.1 h
    cases h
    exact ⟨hnumbered.distinct, hnumbered.below⟩
  · cases h
    exact hnumbered

end Variable

theorem OutputVariable.isNumbered_ofTable {r : TermRegistry} {t : Value} {v : OutputVariable Float}
    (h : ofTable r t = .ok v) : v.toVariable.IsNumbered := by
  simp only [ofTable, bind_eq_ok_iff] at h
  obtain ⟨name, -, ⟨minimum, maximum⟩, -, base, hbase, _, -, _, -, _, -, _, -, _, -, h⟩ := h
  cases h
  exact Variable.isNumbered_fill (Variable.isNumbered_empty name minimum maximum) hbase

/-- A block that a table describes brings texts only. -/
theorem RuleBlock.not_isLoaded_ofTable {inventory : Vocabulary} {t : Value} {b : RuleBlock Float}
    (h : ofTable inventory t = .ok b) : ∀ r ∈ b.rules, r.isLoaded = false := by
  simp only [ofTable, bind_eq_ok_iff] at h
  obtain ⟨_, -, _, -, _, -, _, -, _, -, _, -, _, -, _, -, _, -, h⟩ := h
  cases h
  intro r hr
  obtain ⟨text, -, rfl⟩ := List.mem_map.1 hr
  rfl

namespace Engine

/-- Steps that are edits each, and bring no loaded rules, are edits together. -/
theorem exists_edits_of_foldlM {f : Engine Float → Value → Except Error (Engine Float)}
    (hf : ∀ e t e', f e t = .ok e' →
      ∃ d, e' = e.edit d ∧ ∀ r : Rule Float, d.Brings r → r.isLoaded = false)
    {ts : List Value} {e e' : Engine Float} (h : ts.foldlM f e = .ok e') :
    ∃ ds, e' = e.edited ds ∧ ∀ d ∈ ds, ∀ r : Rule Float, d.Brings r → r.isLoaded = false := by
  induction ts generalizing e with
  | nil =>
    cases h
    exact ⟨[], rfl, fun _ hd => absurd hd List.not_mem_nil⟩
  | cons t ts ih =>
    rw [List.foldlM_cons] at h
    obtain ⟨e₁, hstep, hrest⟩ := bind_eq_ok_iff.1 h
    obtain ⟨d, rfl, hd⟩ := hf e t e₁ hstep
    obtain ⟨ds, rfl, hds⟩ := ih hrest
    exact ⟨d :: ds, rfl, List.forall_mem_cons.2 ⟨hd, hds⟩⟩

/-- What a document describes is assembled by edits, none of which brings a loaded rule. -/
theorem exists_edits_of_assemble {r : TermRegistry} {doc : Value} {e : Engine Float}
    (h : assemble r doc = .ok e) :
    ∃ ds, e = assembled (settings doc).label ds ∧
      ∀ d ∈ ds, ∀ r : Rule Float, d.Brings r → r.isLoaded = false := by
  obtain ⟨e₁, hinputs, h⟩ := bind_eq_ok_iff.1 h
  obtain ⟨e₂, houtputs, hblocks⟩ := bind_eq_ok_iff.1 h
  -- every table is one edit, which adds what the table describes at the end
  obtain ⟨ds₁, rfl, hds₁⟩ := exists_edits_of_foldlM (fun e t e' hstep => by
    obtain ⟨v, hv, rfl⟩ := map_eq_ok_iff.1 hstep
    have hnumbered := Variable.isNumbered_ofTable hv
    exact ⟨.addVariable (.input v) hnumbered .last, rfl, fun _ => False.elim⟩) hinputs
  obtain ⟨ds₂, rfl, hds₂⟩ := exists_edits_of_foldlM (fun e t e' hstep => by
    obtain ⟨v, hv, rfl⟩ := map_eq_ok_iff.1 hstep
    have hnumbered := OutputVariable.isNumbered_ofTable hv
    exact ⟨.addVariable (.output v) hnumbered .last, rfl, fun _ => False.elim⟩) houtputs
  obtain ⟨ds₃, rfl, hds₃⟩ := exists_edits_of_foldlM (fun e t e' hstep => by
    obtain ⟨b, hb, rfl⟩ := map_eq_ok_iff.1 hstep
    exact ⟨.addBlock b .last, rfl, RuleBlock.not_isLoaded_ofTable hb⟩) hblocks
  refine ⟨ds₁ ++ ds₂ ++ ds₃, ?_, ?_⟩
  · rw [assembled, edited_append, edited_append]
  · intro d hd
    rcases List.mem_append.1 hd with hd | hd
    · rcases List.mem_append.1 hd with hd | hd
      · exact hds₁ d hd
      · exact hds₂ d hd
    · exact hds₃ d hd

end Engine

end FuzzyInference
