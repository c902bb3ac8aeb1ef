import FuzzyInference.Outcome
import Mathlib.Data.List.Forall2

/-!
# Values of operations

A cycle is written as a sequence of steps that change a state, report events and may be stopped. What it
computes is easier to say without the events and without the states of operations that were stopped: the
*value* of an outcome is the state that was reached, or the error.

The plan of this module:

* laws of computations that may be refused, among them that a list of them is refused by its first refusal;
* `Outcome.value`, which takes steps in sequence to computations in sequence.

## Main statements

* `Checked.mapM_eq_ok_iff`, `Checked.mapM_eq_error_iff`: a list of computations, item by item
* `Outcome.value_andThen`: the value of steps in sequence
* `Outcome.error_eq_some_iff`: an operation is stopped when its value is refused
-/

namespace FuzzyInference

/-! ## §1 Computations that may be refused -/

namespace Checked

section Laws

variable {ε α β : Type}

@[simp] theorem ok_bind (a : α) (f : α → Except ε β) : (Except.ok a >>= f) = f a := rfl

@[simp] theorem error_bind (e : ε) (f : α → Except ε β) :
    ((Except.error e : Except ε α) >>= f) = .error e := rfl

@[simp] theorem pure_eq_ok (a : α) : (pure a : Except ε α) = .ok a := rfl

@[simp] theorem map_ok (f : α → β) (a : α) : f <$> (Except.ok a : Except ε α) = .ok (f a) := rfl

@[simp] theorem map_error (f : α → β) (e : ε) : f <$> (Except.error e : Except ε α) = .error e := rfl

/-- A sequence has a value when both parts have one. -/
theorem bind_eq_ok_iff {x : Except ε α} {f : α → Except ε β} {b : β} :
    (x >>= f) = .ok b ↔ ∃ a, x = .ok a ∧ f a = .ok b := by
  cases x with
  | ok a => simp
  | error e => simp

/-- A sequence is refused by its first part, or by the second one at the value of the first. -/
theorem bind_eq_error_iff {x : Except ε α} {f : α → Except ε β} {e : ε} :
    (x >>= f) = .error e ↔ x = .error e ∨ ∃ a, x = .ok a ∧ f a = .error e := by
  cases x with
  | ok a => simp
  | error e => simp

/-- A value that a computation has when its refusal is forgotten. -/
theorem eq_ok_of_toOption {x : Except ε α} {a : α} (h : x.toOption = some a) : x = .ok a := by
  cases x with
  | ok b => exact congrArg Except.ok (Option.some.inj h)
  | error e => cases h

theorem map_eq_ok_iff {x : Except ε α} {f : α → β} {b : β} :
    f <$> x = .ok b ↔ ∃ a, x = .ok a ∧ f a = b := by
  cases x with
  | ok a => simp
  | error e => simp

@[simp] theorem map_eq_error_iff {x : Except ε α} {f : α → β} {e : ε} :
    f <$> x = .error e ↔ x = .error e := by
  cases x with
  | ok a => simp
  | error e => simp

/-- A list of computations has as value the list of their values. -/
theorem mapM_eq_ok_iff (f : α → Except ε β) (xs : List α) (ys : List β) :
    xs.mapM f = .ok ys ↔ List.Forall₂ (fun x y => f x = .ok y) xs ys := by
  induction xs generalizing ys with
  | nil => cases ys <;> simp
  | cons x xs ih =>
    rw [List.mapM_cons, bind_eq_ok_iff]
    constructor
    · rintro ⟨y, hy, h⟩
      obtain ⟨rest, hrest, h⟩ := bind_eq_ok_iff.1 h
      cases h
      exact .cons hy ((ih rest).1 hrest)
    · rintro (_ | ⟨hy, hrest⟩)
      exact ⟨_, hy, bind_eq_ok_iff.2 ⟨_, (ih _).2 hrest, rfl⟩⟩

/-- A list of computations is refused by the first one that is. -/
theorem mapM_eq_error_iff (f : α → Except ε β) (xs : List α) (e : ε) :
    xs.mapM f = .error e ↔
      ∃ before x after ys, xs = before ++ x :: after ∧ before.mapM f = .ok ys ∧ f x = .error e := by
  induction xs with
  | nil => simp
  | cons x xs ih =>
    rw [List.mapM_cons, bind_eq_error_iff]
    constructor
    · rintro (h | ⟨y, hy, h⟩)
      -- the first item is the one that is refused
      · exact ⟨[], x, xs, [], rfl, rfl, h⟩
      -- it is among the rest, and the first item joins those before it
      · obtain h | ⟨_, _, h⟩ := bind_eq_error_iff.1 h
        · obtain ⟨before, z, after, ys, rfl, hbefore, hz⟩ := ih.1 h
          refine ⟨x :: before, z, after, y :: ys, rfl, ?_, hz⟩
          simp [List.mapM_cons, hy, hbefore]
        · cases h
    · rintro ⟨before, z, after, ys, hxs, hbefore, hz⟩
      cases before with
      | nil =>
        cases hxs
        exact .inl hz
      | cons w before =>
        cases hxs
        obtain ⟨y, hy, h⟩ := bind_eq_ok_iff.1 ((List.mapM_cons (m := Except ε)).symm.trans hbefore)
        obtain ⟨rest, hrest, -⟩ := bind_eq_ok_iff.1 h
        exact .inr ⟨y, hy, bind_eq_error_iff.2 (.inl (ih.2 ⟨before, z, after, rest, rfl, hrest, hz⟩))⟩

/-- What stands at a place of one of two lists side by side stands next to something in the other. -/
theorem exists_getElem?_of_forall₂ {R : α → β → Prop} {xs : List α} {ys : List β}
    (h : List.Forall₂ R xs ys) {i : Nat} {x : α} (hx : xs[i]? = some x) : ∃ y, ys[i]? = some y ∧ R x y := by
  induction h generalizing i with
  | nil => cases hx
  | cons hr _ ih =>
    cases i with
    | zero =>
      cases hx
      exact ⟨_, rfl, hr⟩
    | succ i => exact ih hx

theorem exists_mem_left_of_forall₂ {R : α → β → Prop} {xs : List α} {ys : List β}
    (h : List.Forall₂ R xs ys) {y : β} (hy : y ∈ ys) : ∃ x ∈ xs, R x y := by
  obtain ⟨i, hi⟩ := List.mem_iff_getElem?.1 hy
  obtain ⟨x, hx, hr⟩ := exists_getElem?_of_forall₂ (R := flip R) (List.Forall₂.flip h) hi
  exact ⟨x, List.mem_of_getElem? hx, hr⟩

theorem exists_mem_right_of_forall₂ {R : α → β → Prop} {xs : List α} {ys : List β}
    (h : List.Forall₂ R xs ys) {x : α} (hx : x ∈ xs) : ∃ y ∈ ys, R x y := by
  obtain ⟨i, hi⟩ := List.mem_iff_getElem?.1 hx
  obtain ⟨y, hy, hr⟩ := exists_getElem?_of_forall₂ h hi
  exact ⟨y, List.mem_of_getElem? hy, hr⟩

/-- Every value of a list of computations is the value of one of them. -/
theorem exists_of_mem_mapM {f : α → Except ε β} {xs : List α} {ys : List β} (h : xs.mapM f = .ok ys)
    {y : β} (hy : y ∈ ys) : ∃ x ∈ xs, f x = .ok y :=
  exists_mem_left_of_forall₂ ((mapM_eq_ok_iff f xs ys).1 h) hy

/-- Every one of a list of computations with values has its value among them. -/
theorem exists_mem_of_mapM {f : α → Except ε β} {xs : List α} {ys : List β} (h : xs.mapM f = .ok ys)
    {x : α} (hx : x ∈ xs) : ∃ y ∈ ys, f x = .ok y :=
  exists_mem_right_of_forall₂ ((mapM_eq_ok_iff f xs ys).1 h) hx

/-- A list of computations that all have values of which `P` holds has a list of such values. -/
theorem exists_mapM_of_forall {P : β → Prop} {f : α → Except ε β} {xs : List α}
    (h : ∀ x ∈ xs, ∃ y, f x = .ok y ∧ P y) : ∃ ys, xs.mapM f = .ok ys ∧ ∀ y ∈ ys, P y := by
  induction xs with
  | nil => exact ⟨[], rfl, nofun⟩
  | cons x xs ih =>
    obtain ⟨y, hy, hPy⟩ := h x List.mem_cons_self
    obtain ⟨ys, hys, hPys⟩ := ih fun z hz => h z (List.mem_cons_of_mem _ hz)
    refine ⟨y :: ys, ?_, List.forall_mem_cons.2 ⟨hPy, hPys⟩⟩
    rw [List.mapM_cons, hy, ok_bind, hys]
    rfl

/-- What the values keep of the items is read off either list. -/
theorem map_eq_of_mapM {γ : Type} {f : α → Except ε β} {g : β → γ} {k : α → γ}
    (hg : ∀ x y, f x = .ok y → g y = k x) {xs : List α} {ys : List β} (h : xs.mapM f = .ok ys) :
    ys.map g = xs.map k := by
  have hall := (mapM_eq_ok_iff f xs ys).1 h
  clear h
  induction hall with
  | nil => rfl
  | cons hy _ ih => rw [List.map_cons, List.map_cons, hg _ _ hy, ih]

/-- Computations that agree on the items of a list agree on the list. -/
theorem mapM_congr {f g : α → Except ε β} {xs : List α} (h : ∀ x ∈ xs, f x = g x) :
    xs.mapM f = xs.mapM g := by
  induction xs with
  | nil => rfl
  | cons x xs ih =>
    rw [List.mapM_cons, List.mapM_cons, h x (by simp), ih fun y hy => h y (by simp [hy])]

/-- What every step keeps, steps in sequence keep. -/
theorem invariant_of_foldlM {P : β → Prop} {f : β → α → Except ε β}
    (hf : ∀ b a b', P b → f b a = .ok b' → P b') {xs : List α} {b b' : β} (hb : P b)
    (h : xs.foldlM f b = .ok b') : P b' := by
  induction xs generalizing b with
  | nil =>
    cases h
    exact hb
  | cons x xs ih =>
    rw [List.foldlM_cons] at h
    obtain ⟨c, hstep, hrest⟩ := bind_eq_ok_iff.1 h
    exact ih (hf b x c hb hstep) hrest

end Laws

/-! ### Faults inside longer computations -/

section Faults

variable {α : Type}

@[simp] theorem liftM_ok (a : α) : (liftM (Except.ok a : Except Fault α) : Except Error α) = .ok a := rfl

@[simp] theorem liftM_error (f : Fault) :
    (liftM (Except.error f : Except Fault α) : Except Error α) = .error (.fault f) := rfl

theorem liftM_eq_ok_iff {x : Except Fault α} {a : α} :
    (liftM x : Except Error α) = .ok a ↔ x = .ok a := by
  cases x with
  | ok b => simp
  | error f => simp

end Faults

end Checked

/-! ## §2 Values of outcomes -/

namespace Outcome

variable {ω σ τ ι : Type}

/-- The state that a completed operation reached, or the error that stopped it. -/
def value (o : Outcome ω σ) : Except Error σ :=
  match o.error with
  | some e => .error e
  | none => .ok o.state

@[simp] theorem value_done (s : σ) : (done s : Outcome ω σ).value = .ok s := rfl

@[simp] theorem value_report (e : ω) (s : σ) : (report e s).value = .ok s := rfl

@[simp] theorem value_stop (e : Error) (s : σ) : (stop e s : Outcome ω σ).value = .error e := rfl

@[simp] theorem value_map (f : σ → τ) (o : Outcome ω σ) : (o.map f).value = f <$> o.value := by
  cases o with
  | mk s es e => cases e <;> rfl

/-- The value of steps in sequence. -/
@[simp] theorem value_andThen (o : Outcome ω σ) (step : σ → Outcome ω σ) :
    (o.andThen step).value = o.value >>= fun s => (step s).value := by
  cases o with
  | mk s es e => cases e <;> rfl

@[simp] theorem state_map (f : σ → τ) (o : Outcome ω σ) : (o.map f).state = f o.state := rfl

@[simp] theorem error_map (f : σ → τ) (o : Outcome ω σ) : (o.map f).error = o.error := rfl

/-- After a completed operation, a further step decides. -/
theorem state_andThen_of_done {o : Outcome ω σ} (h : o.error = none) (step : σ → Outcome ω σ) :
    (o.andThen step).state = (step o.state).state := by
  simp [andThen, h]

theorem error_andThen_of_done {o : Outcome ω σ} (h : o.error = none) (step : σ → Outcome ω σ) :
    (o.andThen step).error = (step o.state).error := by
  simp [andThen, h]

/-- What every step keeps, steps in sequence keep, also when they are stopped. -/
theorem state_andThen_eq {β : Type} {f : σ → β} {step : σ → Outcome ω σ}
    (h : ∀ s, f (step s).state = f s) (o : Outcome ω σ) : f (o.andThen step).state = f o.state := by
  cases herror : o.error with
  | some e => rw [andThen_stopped o step herror]
  | none => rw [state_andThen_of_done herror, h]

theorem state_each_eq {β : Type} {f : σ → β} {step : ι → σ → Outcome ω σ}
    (h : ∀ i s, f (step i s).state = f s) (is : List ι) (s : σ) : f (each step is s).state = f s := by
  induction is generalizing s with
  | nil => rfl
  | cons i is ih => exact (state_andThen_eq ih _).trans (h i s)

theorem value_eq_ok_iff {o : Outcome ω σ} {s : σ} : o.value = .ok s ↔ o.error = none ∧ o.state = s := by
  cases o with
  | mk s es e => cases e <;> simp [value]

/-- An operation is stopped when its value is refused. -/
theorem error_eq_some_iff {o : Outcome ω σ} {e : Error} : o.error = some e ↔ o.value = .error e := by
  cases o with
  | mk s es e => cases e <;> simp [value]

/-- An operation that is completed has its state as value. -/
theorem value_of_error_eq_none {o : Outcome ω σ} (h : o.error = none) : o.value = .ok o.state :=
  value_eq_ok_iff.2 ⟨h, rfl⟩

end Outcome

end FuzzyInference
