import FuzzyInference.Proofs.Decimal.Unpacked
import FuzzyInference.Proofs.Faults.Terms
import FuzzyInference.Proofs.Locality

/-!
# Formulas whose names have values

A formula whose names have values almost always has a value itself. Operators and functions are refused outside
their domain, at a quotient by zero and where a result is too large, and a refusal inside a formula is settled by
`nan` or an infinity. One operator escapes this: the operator of remainders guards its divisor against zero, but
not its dividend against infinities, and an infinite dividend stops the formula. The function of remainders, which
computes the same, is settled like all others.

The plan of this module:

* remainders on floating-point numbers;
* operators and functions that are refused, and what they are settled by;
* the parts of an expression, some of which stop it;
* values, which are there unless a part stops the formula.

## Main statements

* `Scalar.remainderFaults_iff`: which remainders are refused
* `Formula.Expr.eval_bound`: formulas whose names have values
-/

namespace FuzzyInference

open Scalar Checked Decimal

/-! ## §1 Remainders -/

namespace Decimal

/-- The bits of a sign and a magnitude are not those of `nan`. -/
theorem isNaN_floatOfBits (negative : Bool) (magnitude : ℕ) : isNaN (floatOfBits negative magnitude) = false := by
  have hbits := toNat_toBits_floatOfBits negative magnitude
  have hinf : infinityBits = 9218868437227405312 := rfl
  have h63 : twoTo 63 = 9223372036854775808 := rfl
  have h52 : twoTo 52 = 4503599627370496 := rfl
  have h11 : twoTo 11 = 2048 := rfl
  rw [← Bool.not_eq_true, isNaN_iff]
  intro hnan
  unfold Binary.ofFloat at hnan
  dsimp only at hnan
  rw [h52, h11] at hnan
  rw [hinf, h63] at hbits
  split at hnan
  next hones =>
    -- only the bits of an infinity have an exponent of ones
    split at hnan
    · cases hnan
    next hfraction =>
      split at hbits
      · omega
      · omega
  next =>
    split at hnan
    · cases hnan
    · cases hnan

theorem isNaN_nearestFloat (negative : Bool) (num den : ℕ) : isNaN (nearestFloat negative num den) = false := by
  unfold nearestFloat
  dsimp only
  split
  · exact isNaN_floatOfBits _ _
  · exact isNaN_floatOfBits _ _

/-- A remainder is no number when one of its arguments is none, when the dividend is infinite or the divisor
zero. -/
theorem isNaN_remainder (a b : Float) :
    isNaN (Decimal.remainder a b) = (isNaN a || isNaN b || isInf a || b == 0.0) := by
  have hquotient : isNaN (0.0 / 0.0 : Float) = true := by decide
  rw [Bool.eq_iff_iff]
  simp only [Bool.or_eq_true, isNaN_iff (x := a), isNaN_iff (x := b), isInf_iff, beq_zero_iff]
  unfold Decimal.remainder
  rcases ha : Binary.ofFloat a with _ | s | ⟨s, m, e⟩
  · simp [hquotient]
  · simp [hquotient]
  · rcases hb : Binary.ofFloat b with _ | t | ⟨t, n, f⟩
    · simp [hquotient]
    · -- the divisor is infinite, and the dividend stays
      have hnan : isNaN a = false := by
        rw [← Bool.not_eq_true, isNaN_iff, ha]
        nofun
      simp [hnan]
    · by_cases hn : n = 0
      · simp [hn, hquotient]
      · simp [hn, isNaN_nearestFloat]

end Decimal

/-- A divisor that is not zero has no remainder of an infinity, and all other remainders of numbers have a
value. -/
theorem Scalar.remainderFaults_iff {a b : Float} {f : Fault} (hb : (b == 0.0) = false) :
    RemainderFaults a b f ↔ isInf a = true ∧ isNaN b = false ∧ f = .domain := by
  have hrem : rem a b = Decimal.remainder a b := rfl
  have hdisjoint : isInf a = true → isNaN a = false := by
    rw [isInf_iff, ← Bool.not_eq_true, isNaN_iff]
    rintro ⟨negative, h⟩ hnan
    rw [h] at hnan
    cases hnan
  rw [RemainderFaults, hrem, isNaN_remainder, hb]
  cases hinf : isInf a with
  | true =>
    rw [hdisjoint hinf]
    simp
  | false => cases isNaN a <;> cases isNaN b <;> simp

/-! ## §2 Operators and functions -/

namespace Float

variable {x : Float}

theorem cases_of_not_isFinite (h : isFinite x = false) : x = nan ∨ x = inf ∨ x = -inf := by
  rw [isFinite_eq] at h
  cases hx : x.toModel.unpack with
  | notANumber => exact .inl (eq_of_unpack hx)
  | zero s =>
    rw [hx] at h
    cases h
  | infinity s =>
    cases s with
    | positive => exact .inr (.inl (eq_of_unpack hx))
    | negative => exact .inr (.inr (eq_of_unpack hx))
  | finite s m e hm =>
    rw [hx] at h
    cases h

open Float.Model in
/-- A quotient by zero is infinite or `nan`. -/
theorem isFinite_div_of_zero (a : Float) {b : Float} (h : (b == 0.0) = true) : isFinite (a / b) = false := by
  have hdiv : (a / b).toModel =
      pack (UnpackedFloat.div .binary64 a.toModel.unpack b.toModel.unpack) := rfl
  obtain ⟨negative, e, hb⟩ := beq_zero_iff.1 h
  have hzero : b.toModel.unpack = .zero (signOf negative) := by
    rw [unpack_eq_unpacked, hb]
    rfl
  rw [isFinite_eq, hdiv, hzero]
  cases a.toModel.unpack with
  | notANumber => cases negative <;> decide
  | zero s => cases s <;> cases negative <;> decide
  | infinity s => cases s <;> cases negative <;> decide
  | finite s m e hm =>
    -- the sign is all that is left of the numerator
    change (pack (.infinity (s / signOf negative))).unpack.isFinite = false
    cases s <;> cases negative <;> decide

end Float

namespace Formula

/-- What a refusal is settled by is not finite. -/
theorem isFinite_settle {y : Except Fault Float} {fault : Fault} (h : y = .error fault) :
    isFinite (settle y) = false := by
  rw [h]
  cases fault <;> decide

/-- The function has no value of its own that is finite: it is asked outside its domain or at a pole, its value is
too large, or there is no whole number to round to. -/
def UnaryFunction.Refuses (f : UnaryFunction) (x : Float) : Prop :=
  match f with
  | elementary g => ∃ fault, Scalar.apply g x = .error fault
  | ceil | floor | round => isFinite x = false
  | abs | fabs => False

/-- So for functions of two arguments, of which only powers and remainders have a domain. -/
def BinaryFunction.Refuses (f : BinaryFunction) (a b : Float) : Prop :=
  match f with
  | power => ∃ fault, Scalar.power a b = .error fault
  | remainder => (b == 0.0) = true ∨ ∃ fault, Formula.modulo a b = .error fault
  | _ => False

/-- So for operators, among which are quotients. -/
def BinaryOperator.Refuses (operator : BinaryOperator) (a b : Float) : Prop :=
  match operator with
  | power => ∃ fault, Scalar.power a b = .error fault
  | dividedBy => (b == 0.0) = true
  | modulo => (b == 0.0) = true ∨ ∃ fault, Formula.modulo a b = .error fault
  | _ => False

theorem UnaryFunction.isFinite_eval {f : UnaryFunction} {x : Float} (h : f.Refuses x) :
    isFinite (f.eval x) = false := by
  cases f with
  | elementary g =>
    obtain ⟨fault, h⟩ := h
    exact isFinite_settle h
  | abs => exact h.elim
  | fabs => exact h.elim
  | ceil => obtain rfl | rfl | rfl := Float.cases_of_not_isFinite h <;> decide
  | floor => obtain rfl | rfl | rfl := Float.cases_of_not_isFinite h <;> decide
  | round => obtain rfl | rfl | rfl := Float.cases_of_not_isFinite h <;> decide

theorem BinaryFunction.isFinite_eval {f : BinaryFunction} {a b : Float} (h : f.Refuses a b) :
    isFinite (f.eval a b) = false := by
  cases f with
  | power =>
    obtain ⟨fault, h⟩ := h
    exact isFinite_settle h
  | remainder =>
    rcases h with hzero | ⟨fault, h⟩
    · have hnan : Formula.modulo a b = .ok nan := if_pos hzero
      change isFinite (settle (Formula.modulo a b)) = false
      rw [hnan]
      decide
    · exact isFinite_settle h
  | _ => exact h.elim

/-- Of all operators that are refused only the one of remainders stops, at an infinite dividend. -/
theorem BinaryOperator.eval_of_refuses {operator : BinaryOperator} {a b : Float} (h : operator.Refuses a b) :
    (∃ x, operator.eval a b = .ok x ∧ isFinite x = false) ∨
      operator = .modulo ∧ isInf a = true ∧ (b == 0.0) = false ∧ isNaN b = false := by
  cases operator with
  | power =>
    obtain ⟨fault, h⟩ := h
    exact .inl ⟨_, rfl, isFinite_settle h⟩
  | dividedBy => exact .inl ⟨_, rfl, Float.isFinite_div_of_zero a h⟩
  | modulo =>
    cases hzero : b == 0.0 with
    | true => exact .inl ⟨nan, if_pos hzero, by decide⟩
    | false =>
      have hrefused : ∃ fault, Formula.modulo a b = .error fault :=
        Or.resolve_left h fun htrue => Bool.false_ne_true (hzero.symm.trans htrue)
      obtain ⟨fault, hfault⟩ := hrefused
      have heval : BinaryOperator.modulo.eval a b = .error fault := hfault
      obtain ⟨-, -, hfaults⟩ := Expr.binary_eq_error_iff.1 heval
      obtain ⟨hinf, hnan, -⟩ := (remainderFaults_iff hzero).1 hfaults
      exact .inr ⟨rfl, hinf, rfl, hnan⟩
  | _ => exact h.elim

/-! ## §3 Parts -/

namespace Expr

/-- The subexpressions of an expression, itself among them. -/
inductive Part {α : Type} : Expr α → Expr α → Prop
  | self (e : Expr α) : Part e e
  | operand {p e : Expr α} (operator : UnaryOperator) : Part p e → Part p (.unary operator e)
  | left {p l : Expr α} (operator : BinaryOperator) (r : Expr α) : Part p l → Part p (.binary operator l r)
  | right {p r : Expr α} (operator : BinaryOperator) (l : Expr α) : Part p r → Part p (.binary operator l r)
  | argument {p e : Expr α} (f : UnaryFunction) : Part p e → Part p (.apply f e)
  | first {p l : Expr α} (f : BinaryFunction) (r : Expr α) : Part p l → Part p (.apply₂ f l r)
  | second {p r : Expr α} (f : BinaryFunction) (l : Expr α) : Part p r → Part p (.apply₂ f l r)

/-- Every name that is no constant has a value. -/
def Bound {α : Type} [Scalar α] (scope : Valuation α) (e : Expr α) : Prop :=
  ∀ n ∈ e.names, constant? (α := α) n = none → ∃ x, scope n = some x

/-- The operator or the function on top is refused at the values that it is given. -/
def Refused (scope : Valuation Float) : Expr Float → Prop
  | literal _ | reference _ | unary _ _ => False
  | binary operator l r => ∃ a b, l.eval scope = .ok a ∧ r.eval scope = .ok b ∧ operator.Refuses a b
  | apply f argument => ∃ x, argument.eval scope = .ok x ∧ f.Refuses x
  | apply₂ f l r => ∃ a b, l.eval scope = .ok a ∧ r.eval scope = .ok b ∧ f.Refuses a b

/-- The expression is the remainder of an infinity by a number that is not zero. -/
def Unsettled (scope : Valuation Float) (p : Expr Float) : Prop :=
  ∃ l r a b, p = .binary .modulo l r ∧ l.eval scope = .ok a ∧ r.eval scope = .ok b ∧
    isInf a = true ∧ (b == 0.0) = false ∧ isNaN b = false

/-- Some part of the expression is such a remainder. -/
def Stops (scope : Valuation Float) (e : Expr Float) : Prop := ∃ p, Part p e ∧ p.Unsettled scope

section

variable {scope : Valuation Float} {e l r : Expr Float}

theorem not_stops_literal (value : Float) : ¬(literal value).Stops scope := by
  rintro ⟨p, ⟨⟩, l, r, a, b, ⟨⟩, -⟩

theorem not_stops_reference (name : String) : ¬(reference name : Expr Float).Stops scope := by
  rintro ⟨p, ⟨⟩, l, r, a, b, ⟨⟩, -⟩

theorem stops_unary (operator : UnaryOperator) : (unary operator e).Stops scope ↔ e.Stops scope := by
  constructor
  · rintro ⟨p, hp, hstops⟩
    cases hp with
    | self =>
      obtain ⟨l, r, a, b, ⟨⟩, -⟩ := hstops
    | operand _ hp => exact ⟨p, hp, hstops⟩
  · rintro ⟨p, hp, hstops⟩
    exact ⟨p, .operand operator hp, hstops⟩

theorem stops_apply (f : UnaryFunction) : (apply f e).Stops scope ↔ e.Stops scope := by
  constructor
  · rintro ⟨p, hp, hstops⟩
    cases hp with
    | self =>
      obtain ⟨l, r, a, b, ⟨⟩, -⟩ := hstops
    | argument _ hp => exact ⟨p, hp, hstops⟩
  · rintro ⟨p, hp, hstops⟩
    exact ⟨p, .argument f hp, hstops⟩

theorem stops_apply₂ (f : BinaryFunction) : (apply₂ f l r).Stops scope ↔ l.Stops scope ∨ r.Stops scope := by
  constructor
  · rintro ⟨p, hp, hstops⟩
    cases hp with
    | self =>
      obtain ⟨l, r, a, b, ⟨⟩, -⟩ := hstops
    | first _ _ hp => exact .inl ⟨p, hp, hstops⟩
    | second _ _ hp => exact .inr ⟨p, hp, hstops⟩
  · rintro (⟨p, hp, hstops⟩ | ⟨p, hp, hstops⟩)
    · exact ⟨p, .first f r hp, hstops⟩
    · exact ⟨p, .second f l hp, hstops⟩

theorem stops_binary (operator : BinaryOperator) :
    (binary operator l r).Stops scope ↔
      (l.Stops scope ∨ r.Stops scope) ∨ (binary operator l r).Unsettled scope := by
  constructor
  · rintro ⟨p, hp, hstops⟩
    cases hp with
    | self => exact .inr hstops
    | left _ _ hp => exact .inl (.inl ⟨p, hp, hstops⟩)
    | right _ _ hp => exact .inl (.inr ⟨p, hp, hstops⟩)
  · rintro ((⟨p, hp, hstops⟩ | ⟨p, hp, hstops⟩) | hstops)
    · exact ⟨p, .left operator r hp, hstops⟩
    · exact ⟨p, .right operator l hp, hstops⟩
    · exact ⟨_, .self _, hstops⟩

end

/-! ## §4 Values -/

/-- The computation has a value, or the condition holds and stops it. -/
def StoppedWhen {β : Type} (x : Except Error β) (P : Prop) : Prop :=
  (∃ b, x = .ok b) ∧ ¬P ∨ x = .error (.fault .domain) ∧ P

namespace StoppedWhen

variable {β γ : Type} {x : Except Error β} {P Q : Prop}

theorem ok (b : β) (h : ¬P) : StoppedWhen (.ok b) P := .inl ⟨⟨b, rfl⟩, h⟩

/-- A sequence is stopped by either part. -/
theorem bind {f : β → Except Error γ} (hx : StoppedWhen x P)
    (hf : ∀ b, x = .ok b → StoppedWhen (f b) Q) : StoppedWhen (x >>= f) (P ∨ Q) := by
  rcases hx with ⟨⟨b, rfl⟩, hP⟩ | ⟨rfl, hP⟩
  · rcases hf b rfl with ⟨hvalue, hQ⟩ | ⟨herror, hQ⟩
    · exact .inl ⟨hvalue, not_or.2 ⟨hP, hQ⟩⟩
    · exact .inr ⟨herror, .inr hQ⟩
  · exact .inr ⟨rfl, .inl hP⟩

/-- What follows a computation and cannot be refused does not matter. -/
theorem bind_ok {f : β → γ} (hx : StoppedWhen x P) : StoppedWhen (do let b ← x; return f b) P := by
  rcases hx with ⟨⟨b, rfl⟩, hP⟩ | ⟨rfl, hP⟩
  · exact .inl ⟨⟨f b, rfl⟩, hP⟩
  · exact .inr ⟨rfl, hP⟩

theorem congr (hx : StoppedWhen x P) (h : P ↔ Q) : StoppedWhen x Q := by rwa [← propext h]

end StoppedWhen

section

variable {scope : Valuation Float} {l r : Expr Float}

/-- An operator stops at nothing but the remainders that are not settled. -/
theorem stoppedWhen_operator (operator : BinaryOperator) {a b : Float} (hl : l.eval scope = .ok a)
    (hr : r.eval scope = .ok b) :
    StoppedWhen (operator.eval a b : Except Fault Float) ((binary operator l r).Unsettled scope) := by
  have hunsettled : (binary operator l r).Unsettled scope ↔
      operator = .modulo ∧ (b == 0.0) = false ∧ RemainderFaults a b .domain := by
    constructor
    · rintro ⟨l', r', a', b', ⟨⟩, hl', hr', hinf, hzero, hnan⟩
      obtain rfl : a' = a := by simpa [hl'] using hl
      obtain rfl : b' = b := by simpa [hr'] using hr
      exact ⟨rfl, hzero, (remainderFaults_iff hzero).2 ⟨hinf, hnan, rfl⟩⟩
    · rintro ⟨rfl, hzero, hfaults⟩
      obtain ⟨hinf, hnan, -⟩ := (remainderFaults_iff hzero).1 hfaults
      exact ⟨l, r, a, b, rfl, hl, hr, hinf, hzero, hnan⟩
  rw [hunsettled, ← binary_eq_error_iff]
  cases hvalue : operator.eval a b with
  | ok c => exact .ok c nofun
  | error f =>
    obtain ⟨-, hzero, hfaults⟩ := binary_eq_error_iff.1 hvalue
    obtain ⟨-, -, rfl⟩ := (remainderFaults_iff hzero).1 hfaults
    exact .inr ⟨rfl, rfl⟩

end

/-- A formula whose names have values has one itself, unless some part of it is the remainder of an infinity. -/
theorem stoppedWhen_eval {scope : Valuation Float} {e : Expr Float} (h : e.Bound scope) :
    StoppedWhen (e.eval scope) (e.Stops scope) := by
  induction e with
  | literal value => exact .ok value (not_stops_literal value)
  | reference name =>
    unfold eval
    cases hscope : scope name with
    | some value => exact .ok value (not_stops_reference name)
    | none =>
      cases hconstant : constant? (α := Float) name with
      | some value => exact .ok value (not_stops_reference name)
      | none =>
        obtain ⟨x, hx⟩ := h name (List.mem_singleton_self name) hconstant
        rw [hscope] at hx
        cases hx
  | unary operator operand ih => exact (ih h).bind_ok.congr (stops_unary operator).symm
  | binary operator l r ihl ihr =>
    have hl := ihl fun n hn => h n (List.mem_append_left _ hn)
    have hr := ihr fun n hn => h n (List.mem_append_right _ hn)
    refine (hl.bind fun a ha => hr.bind fun b hb => stoppedWhen_operator operator ha hb).congr ?_
    rw [stops_binary, or_assoc]
  | apply f argument ih => exact (ih h).bind_ok.congr (stops_apply f).symm
  | apply₂ f l r ihl ihr =>
    have hl := ihl fun n hn => h n (List.mem_append_left _ hn)
    have hr := ihr fun n hn => h n (List.mem_append_right _ hn)
    exact (hl.bind fun a _ => hr.bind_ok).congr (stops_apply₂ f).symm

/-- A part that is refused is settled by `nan` or an infinity, unless it is the remainder of an infinity. -/
theorem Refused.settled {scope : Valuation Float} {p : Expr Float} (h : p.Refused scope) :
    p.Unsettled scope ∨ ∃ x, p.eval scope = .ok x ∧ isFinite x = false := by
  cases p with
  | literal value => exact h.elim
  | reference name => exact h.elim
  | unary operator operand => exact h.elim
  | binary operator l r =>
    obtain ⟨a, b, hl, hr, hrefuses⟩ := h
    rcases BinaryOperator.eval_of_refuses hrefuses with ⟨x, hx, hfinite⟩ | ⟨rfl, hinf, hzero, hnan⟩
    · exact .inr ⟨x, by simp [eval, hl, hr, hx, liftM], hfinite⟩
    · exact .inl ⟨l, r, a, b, rfl, hl, hr, hinf, hzero, hnan⟩
  | apply f argument =>
    obtain ⟨x, hx, hrefuses⟩ := h
    exact .inr ⟨f.eval x, by simp [eval, hx], UnaryFunction.isFinite_eval hrefuses⟩
  | apply₂ f l r =>
    obtain ⟨a, b, hl, hr, hrefuses⟩ := h
    exact .inr ⟨f.eval a b, by simp [eval, hl, hr], BinaryFunction.isFinite_eval hrefuses⟩

/-- A formula whose names have values has a value itself, or it is stopped, and then by a remainder: it is stopped
exactly if a part of it is the remainder of an infinity by a number that is not zero, taken by the operator.
Whatever else is refused in a part, outside a domain, at a quotient by zero or where a result is too large, is
`nan` or an infinity. -/
theorem eval_bound {scope : Valuation Float} {e : Expr Float} (h : e.Bound scope) :
    ((∃ x, e.eval scope = .ok x) ∨ e.eval scope = .error (.fault .domain)) ∧
      (e.eval scope = .error (.fault .domain) ↔ ∃ p, Part p e ∧ p.Unsettled scope) ∧
      ∀ p, Part p e → p.Refused scope →
        p.Unsettled scope ∨ ∃ x, p.eval scope = .ok x ∧ (x = nan ∨ x = inf ∨ x = -inf) := by
  have hstopped := stoppedWhen_eval h
  refine ⟨?_, ?_, ?_⟩
  · rcases hstopped with ⟨hvalue, -⟩ | ⟨herror, -⟩
    · exact .inl hvalue
    · exact .inr herror
  · rcases hstopped with ⟨⟨x, hx⟩, hstops⟩ | ⟨herror, hstops⟩
    · have hne : e.eval scope ≠ .error (.fault .domain) := by
        rw [hx]
        nofun
      exact ⟨fun herror => absurd herror hne, fun hp => absurd hp hstops⟩
    · exact ⟨fun _ => hstops, fun _ => herror⟩
  · intro p _ hrefused
    rcases hrefused.settled with hunsettled | ⟨x, hx, hfinite⟩
    · exact .inl hunsettled
    · exact .inr ⟨x, hx, Float.cases_of_not_isFinite hfinite⟩

/-- The remainder of a name that is infinite: the formula is stopped. -/
theorem eval_bound_infinite :
    let e : Expr Float := .binary .modulo (.reference "x") (.literal 1.0)
    let scope : Valuation Float := fun n => if n = "x" then some inf else none
    e.Bound scope ∧ e.eval scope = .error (.fault .domain) := by
  intro e scope
  have hbound : e.Bound scope := by
    intro n hn _
    obtain rfl : n = "x" := List.mem_singleton.1 hn
    exact ⟨inf, rfl⟩
  have hunsettled : e.Unsettled scope :=
    ⟨_, _, inf, 1.0, rfl, rfl, rfl, by decide, by decide, by decide⟩
  exact ⟨hbound, (eval_bound hbound).2.1.2 ⟨e, .self e, hunsettled⟩⟩

end Expr

end Formula

end FuzzyInference
