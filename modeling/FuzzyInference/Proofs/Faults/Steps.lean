import FuzzyInference.Hedge
import FuzzyInference.Norm
import FuzzyInference.Proofs.Value

/-!
# Faults of single steps

An error of a cycle either tells something about the fuzzy model or it *escapes*: it is an arithmetic fault
of some elementary step. This module says which arguments make a single step fault, and how the faults of a
computation come from its steps.

The plan of this module:

* errors that escape, and computations in sequence;
* arithmetic steps;
* hedges and norms.

## Main statements

* `Checked.EscapesWhen.bind`, `Checked.EscapesWhen.mapM`, `Checked.EscapesWhen.foldlM`: computations in
  sequence
* `Hedge.apply_eq_error_iff`, `Hedge.applyAll_eq_error_iff`: hedges
* `TNorm.compute_eq_error_iff`, `SNorm.compute_eq_error_iff`: norms
-/

namespace FuzzyInference

open Scalar

/-! ## §1 Errors that escape -/

namespace Checked

variable {β γ : Type}

/-- The errors that escape from a computation are the faults of which `P` holds. -/
def EscapesWhen (x : Except Error β) (P : Fault → Prop) : Prop :=
  ∀ err, (x = .error err ∧ err.isFuzzy = false) ↔ ∃ f, err = .fault f ∧ P f

namespace EscapesWhen

variable {x y : Except Error β} {P Q : Fault → Prop}

theorem congr (h : EscapesWhen x P) (hPQ : ∀ f, P f ↔ Q f) : EscapesWhen x Q := by
  intro err
  rw [h err]
  exact exists_congr fun f => and_congr_right fun _ => hPQ f

theorem ok (b : β) : EscapesWhen (.ok b) fun _ => False := by
  simp [EscapesWhen]

theorem evaluation (e : EvaluationError) :
    EscapesWhen (.error (.evaluation e) : Except Error β) fun _ => False := by
  intro err
  constructor
  · rintro ⟨h, hfuzzy⟩
    cases h
    cases hfuzzy
  · rintro ⟨f, -, hf⟩
    exact hf.elim

theorem liftM {z : Except Fault β} (h : ∀ f, z = .error f ↔ P f) :
    EscapesWhen (liftM z : Except Error β) P := by
  intro err
  cases z with
  | error g =>
    rw [liftM_error]
    constructor
    · rintro ⟨herr, -⟩
      exact ⟨g, (Except.error.inj herr).symm, (h g).1 rfl⟩
    · rintro ⟨f, rfl, hf⟩
      cases (h f).2 hf
      exact ⟨rfl, rfl⟩
  | ok b =>
    have hnone : ∀ f, ¬P f := fun f hf => nomatch (h f).2 hf
    simp [hnone]

/-- What escapes from a sequence escapes from its first part, or from the rest where the first part has a
value. -/
theorem bind {g : β → Except Error γ} {R : β → Fault → Prop} (hx : EscapesWhen x P)
    (hg : ∀ b, EscapesWhen (g b) (R b)) :
    EscapesWhen (x >>= g) fun f => P f ∨ ∃ b, x = .ok b ∧ R b f := by
  intro err
  constructor
  · rintro ⟨h, hfuzzy⟩
    -- the error is that of the first part, or of the second one at the value of the first
    rcases bind_eq_error_iff.1 h with h | ⟨b, hb, h⟩
    · obtain ⟨f, hf, hP⟩ := (hx err).1 ⟨h, hfuzzy⟩
      exact ⟨f, hf, .inl hP⟩
    · obtain ⟨f, hf, hR⟩ := (hg b err).1 ⟨h, hfuzzy⟩
      exact ⟨f, hf, .inr ⟨b, hb, hR⟩⟩
  · rintro ⟨f, hf, hP | ⟨b, hb, hR⟩⟩
    · obtain ⟨h, hfuzzy⟩ := (hx err).2 ⟨f, hf, hP⟩
      exact ⟨bind_eq_error_iff.2 (.inl h), hfuzzy⟩
    · obtain ⟨h, hfuzzy⟩ := (hg b err).2 ⟨f, hf, hR⟩
      exact ⟨bind_eq_error_iff.2 (.inr ⟨b, hb, h⟩), hfuzzy⟩

theorem bind_ok {g : β → γ} (hx : EscapesWhen x P) : EscapesWhen (x >>= fun b => .ok (g b)) P :=
  (hx.bind fun b => ok (g b)).congr fun f => by simp

theorem map {g : β → γ} (hx : EscapesWhen x P) : EscapesWhen (g <$> x) P := by
  have hbind : g <$> x = x >>= fun b => .ok (g b) := by cases x <;> rfl
  rw [hbind]
  exact hx.bind_ok

/-- Nothing escapes from what is done with a value. -/
theorem of_map {g : β → γ} (h : EscapesWhen (g <$> x) P) : EscapesWhen x P := by
  intro err
  rw [← h err, map_eq_error_iff]

theorem ite {c : Prop} [Decidable c] (hx : EscapesWhen x P) (hy : EscapesWhen y Q) :
    EscapesWhen (if c then x else y) fun f => if c then P f else Q f := by
  by_cases h : c
  · simpa only [if_pos h] using hx
  · simpa only [if_neg h] using hy

end EscapesWhen

theorem exists_mapM_iff {ε : Type} {g : β → Except ε γ} {xs : List β} :
    (∃ ys, xs.mapM g = .ok ys) ↔ ∀ x ∈ xs, ∃ y, g x = .ok y := by
  constructor
  · rintro ⟨ys, h⟩ x hx
    obtain ⟨y, -, hy⟩ := exists_mem_of_mapM h hx
    exact ⟨y, hy⟩
  · intro h
    induction xs with
    | nil => exact ⟨[], rfl⟩
    | cons x xs ih =>
      obtain ⟨y, hy⟩ := h x List.mem_cons_self
      obtain ⟨ys, hys⟩ := ih fun z hz => h z (List.mem_cons_of_mem _ hz)
      exact ⟨y :: ys, (mapM_eq_ok_iff g _ _).2 (.cons hy ((mapM_eq_ok_iff g _ _).1 hys))⟩

/-- What escapes from a list of computations escapes from one of them, where all before it have values. -/
theorem EscapesWhen.mapM {g : β → Except Error γ} {R : β → Fault → Prop} {xs : List β}
    (hg : ∀ x ∈ xs, EscapesWhen (g x) (R x)) :
    EscapesWhen (xs.mapM g) fun f =>
      ∃ before x after, xs = before ++ x :: after ∧ (∀ y ∈ before, ∃ z, g y = .ok z) ∧ R x f := by
  intro err
  constructor
  · rintro ⟨h, hfuzzy⟩
    obtain ⟨before, x, after, ys, rfl, hbefore, hx⟩ := (mapM_eq_error_iff g xs err).1 h
    obtain ⟨f, hf, hR⟩ := (hg x (by simp) err).1 ⟨hx, hfuzzy⟩
    exact ⟨f, hf, before, x, after, rfl, exists_mapM_iff.1 ⟨ys, hbefore⟩, hR⟩
  · rintro ⟨f, hf, before, x, after, rfl, hbefore, hR⟩
    obtain ⟨hx, hfuzzy⟩ := (hg x (by simp) err).2 ⟨f, hf, hR⟩
    obtain ⟨ys, hys⟩ := exists_mapM_iff.2 hbefore
    exact ⟨(mapM_eq_error_iff g _ err).2 ⟨before, x, after, ys, rfl, hys, hx⟩, hfuzzy⟩

/-- A state that is changed item by item is refused at the first item whose step is. -/
theorem foldlM_eq_error_iff {ε σ : Type} {step : σ → β → Except ε σ} {xs : List β} {s : σ} {e : ε} :
    xs.foldlM step s = .error e ↔
      ∃ before x after t, xs = before ++ x :: after ∧ before.foldlM step s = .ok t ∧
        step t x = .error e := by
  -- the state in front of the rest is the one that the first item leaves
  induction xs generalizing s with
  | nil => simp
  | cons x xs ih =>
    rw [List.foldlM_cons, bind_eq_error_iff]
    constructor
    · rintro (h | ⟨t, ht, h⟩)
      · exact ⟨[], x, xs, s, rfl, rfl, h⟩
      · obtain ⟨before, y, after, u, rfl, hu, hy⟩ := ih.1 h
        refine ⟨x :: before, y, after, u, rfl, ?_, hy⟩
        rw [List.foldlM_cons, ht, ok_bind, hu]
    · rintro ⟨before, y, after, u, hsplit, hu, hy⟩
      cases before with
      | nil =>
        cases hsplit
        cases hu
        exact .inl hy
      | cons z before =>
        cases hsplit
        rw [List.foldlM_cons] at hu
        obtain ⟨t, ht, hu⟩ := bind_eq_ok_iff.1 hu
        exact .inr ⟨t, ht, ih.2 ⟨before, y, after, u, rfl, hu, hy⟩⟩

theorem EscapesWhen.foldlM {σ : Type} {step : σ → β → Except Error σ} {R : σ → β → Fault → Prop}
    (hstep : ∀ t x, EscapesWhen (step t x) (R t x)) (xs : List β) (s : σ) :
    EscapesWhen (xs.foldlM step s) fun f =>
      ∃ before x after t, xs = before ++ x :: after ∧ before.foldlM step s = .ok t ∧ R t x f := by
  intro err
  rw [foldlM_eq_error_iff]
  constructor
  · rintro ⟨⟨before, x, after, t, hsplit, ht, hx⟩, hfuzzy⟩
    obtain ⟨f, hf, hR⟩ := (hstep t x err).1 ⟨hx, hfuzzy⟩
    exact ⟨f, hf, before, x, after, t, hsplit, ht, hR⟩
  · rintro ⟨f, hf, before, x, after, t, hsplit, ht, hR⟩
    obtain ⟨hx, hfuzzy⟩ := (hstep t x err).2 ⟨f, hf, hR⟩
    exact ⟨⟨before, x, after, t, hsplit, ht, hx⟩, hfuzzy⟩

end Checked

/-! ## §2 Arithmetic -/

/-- A computation that is refused under a condition. -/
theorem ite_eq_error_iff {ε β : Type} {c : Prop} [Decidable c] {x : Except ε β} {e g : ε} :
    (if c then .error g else x) = .error e ↔ (c ∧ e = g) ∨ (¬c ∧ x = .error e) := by
  by_cases h : c
  · simp [h, eq_comm]
  · simp [h]

namespace Scalar

variable {α : Type} [Scalar α]

/-- Nothing is divided by zero. -/
def DivideFaults (b : α) (f : Fault) : Prop := (b == 0.0) = true ∧ f = .zeroDivision

/-- A real function has no value outside its domain, and none where its value is too large. -/
def ApplyFaults (g : Elementary) (x : α) (f : Fault) : Prop :=
  ((isNaN (elementary g x) && !isNaN x) = true ∧ f = .domain) ∨
    ((isNaN (elementary g x) && !isNaN x) = false ∧ (isInf (elementary g x) && isFinite x) = true ∧
      f = if g.grows then .overflow else .domain)

/-- A power of finite scalars may have no value, be infinite for a base of zero, or be too large. -/
def PowerFaults (a b : α) (f : Fault) : Prop :=
  (isFinite a && isFinite b) = true ∧
    ((isNaN (pow a b) = true ∧ f = .domain) ∨
      (isNaN (pow a b) = false ∧ isInf (pow a b) = true ∧
        f = if a == 0.0 then .zeroDivision else .overflow))

/-- The square of a finite scalar may be too large. -/
def SquareFaults (x : α) (f : Fault) : Prop := (isInf (x * x) && isFinite x) = true ∧ f = .overflow

/-- A remainder may have no value. -/
def RemainderFaults (a b : α) (f : Fault) : Prop :=
  (isNaN (rem a b) && !isNaN a && !isNaN b) = true ∧ f = .domain

theorem divide_eq_error_iff {a b : α} {f : Fault} : divide a b = .error f ↔ DivideFaults b f := by
  simp [divide, DivideFaults, ite_eq_error_iff]

theorem apply_eq_error_iff {g : Elementary} {x : α} {f : Fault} :
    apply g x = .error f ↔ ApplyFaults g x f := by
  simp only [Scalar.apply, ApplyFaults, ite_eq_error_iff, reduceCtorEq, and_false, or_false,
    Bool.not_eq_true]

theorem power_eq_error_iff {a b : α} {f : Fault} : power a b = .error f ↔ PowerFaults a b f := by
  unfold power PowerFaults
  by_cases hfinite : (isFinite a && isFinite b) = true
  · simp only [hfinite, if_true, ite_eq_error_iff, reduceCtorEq, and_false, or_false, true_and,
      Bool.not_eq_true]
  · simp [hfinite]

theorem square_eq_error_iff {x : α} {f : Fault} : square x = .error f ↔ SquareFaults x f := by
  simp only [square, SquareFaults, ite_eq_error_iff, reduceCtorEq, and_false, or_false]

theorem remainder_eq_error_iff {a b : α} {f : Fault} :
    remainder a b = .error f ↔ RemainderFaults a b f := by
  simp only [remainder, RemainderFaults, ite_eq_error_iff, reduceCtorEq, and_false, or_false]

theorem rescale_eq_error_iff {x fromMin fromMax toMin toMax : α} {f : Fault} :
    rescale x fromMin fromMax toMin toMax = .error f ↔ DivideFaults (fromMax - fromMin) f := by
  rw [rescale, Checked.bind_eq_error_iff, divide_eq_error_iff]
  simp [pure, Except.pure]

end Scalar

/-! ## §3 Hedges -/

namespace Hedge

variable {α : Type} [Scalar α]

/-- A hedge faults where it takes a root of a number that has none. -/
def Faults (h : Hedge) (x : α) (f : Fault) : Prop :=
  match h with
  | seldom => ApplyFaults .sqrt (if x ≤ 0.5 then 0.5 * x else 0.5 * (1.0 - x)) f
  | somewhat => ApplyFaults .sqrt x f
  | any | not | extremely | very => False

/-- One hedge of a chain faults at the degree that the hedges behind it yield. -/
def ChainFaults (hs : List Hedge) (x : α) (f : Fault) : Prop :=
  ∃ before h after y, hs = before ++ h :: after ∧ applyAll after x = .ok y ∧ h.Faults y f

theorem apply_eq_error_iff {h : Hedge} {x : α} {f : Fault} : h.apply x = .error f ↔ h.Faults x f := by
  cases h with
  | any => simp [Hedge.apply, Faults]
  | not => simp [Hedge.apply, Faults]
  | extremely => simp [Hedge.apply, Faults]
  | very => simp [Hedge.apply, Faults]
  | somewhat => exact Scalar.apply_eq_error_iff
  | seldom =>
    simp only [Hedge.apply, Faults]
    -- the root is taken on either side of one half, of a different number
    by_cases hx : x ≤ 0.5
    · rw [if_pos hx, if_pos hx, Scalar.apply_eq_error_iff]
    · rw [if_neg hx, if_neg hx, Checked.bind_eq_error_iff, Scalar.apply_eq_error_iff]
      simp [pure, Except.pure]

theorem applyAll_eq_error_iff {hs : List Hedge} {x : α} {f : Fault} :
    applyAll hs x = .error f ↔ ChainFaults hs x f := by
  -- the last hedge of a chain is applied first, so the head of the list is the last to fault
  induction hs with
  | nil => simp [applyAll, ChainFaults]
  | cons h hs ih =>
    rw [applyAll, Checked.bind_eq_error_iff, ih]
    constructor
    · rintro (⟨before, g, after, y, rfl, hy, hg⟩ | ⟨y, hy, hh⟩)
      · exact ⟨h :: before, g, after, y, rfl, hy, hg⟩
      · exact ⟨[], h, hs, y, rfl, hy, apply_eq_error_iff.1 hh⟩
    · rintro ⟨before, g, after, y, hsplit, hy, hg⟩
      cases before with
      | nil =>
        cases hsplit
        exact .inr ⟨y, hy, apply_eq_error_iff.2 hg⟩
      | cons k before =>
        cases hsplit
        exact .inl ⟨before, g, after, y, rfl, hy, hg⟩

end Hedge

/-! ## §4 Norms -/

section Norms

variable {α : Type} [Scalar α]

/-- The Einstein product divides by what may vanish outside the unit interval. -/
def TNorm.Faults (t : TNorm) (a b : α) (f : Fault) : Prop :=
  match t with
  | einsteinProduct => DivideFaults (2.0 - (a + b - a * b)) f
  | _ => False

/-- The Einstein sum and the normalized sum divide. -/
def SNorm.Faults (s : SNorm) (a b : α) (f : Fault) : Prop :=
  match s with
  | normalizedSum => DivideFaults (greatest 1.0 (a + b)) f
  | einsteinSum => DivideFaults (1.0 + a * b) f
  | _ => False

theorem TNorm.compute_eq_error_iff {t : TNorm} {a b : α} {f : Fault} :
    t.compute a b = .error f ↔ t.Faults a b f := by
  cases t <;> simp [compute, Faults, divide_eq_error_iff]

theorem SNorm.compute_eq_error_iff {s : SNorm} {a b : α} {f : Fault} :
    s.compute a b = .error f ↔ s.Faults a b f := by
  cases s <;> simp [compute, Faults, divide_eq_error_iff]

end Norms

end FuzzyInference
