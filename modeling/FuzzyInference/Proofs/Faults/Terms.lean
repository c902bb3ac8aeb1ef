import FuzzyInference.Proofs.Faults.Steps
import FuzzyInference.Term.Basic

/-!
# Faults of terms

Where a curve has no degree, a shape no inverse and a formula no value. What is divided by is named in every
case; a shape that guards a quotient by a tolerant comparison cannot fault at it.

The plan of this module:

* curves and shapes;
* inverses;
* formulas and terms.

## Main statements

* `Shape.degree_eq_error_iff`, `Shape.inverse_eq_error_iff`
* `Formula.Expr.escapesWhen_eval`
* `Term.escapesWhen_membership`, `Term.escapesWhen_invert`
-/

namespace FuzzyInference

open Scalar Checked

variable {α : Type} [Scalar α]

/-! ## §1 Curves -/

namespace Shape

/-- The square of a quotient. -/
def SquaredFaults (distance width : α) (f : Fault) : Prop :=
  DivideFaults width f ∨ ∃ q, divide distance width = .ok q ∧ SquareFaults q f

/-- The s-curve and the z-curve square the same quotients. -/
def ParabolaFaults (x start stop : α) (f : Fault) : Prop :=
  if atMost x start then False
  else if atMost x (0.5 * (start + stop)) then SquaredFaults (x - start) (stop - start) f
  else if below x stop then SquaredFaults (x - stop) (stop - start) f
  else False

/-- Exponents above the limit are not raised. -/
def LogisticFaults (x inflection slope : α) (f : Fault) : Prop :=
  if exponentLimit < -slope * (x - inflection) then False
  else
    ApplyFaults .exp (-slope * (x - inflection)) f ∨
      ∃ y, apply .exp (-slope * (x - inflection)) = .ok y ∧ DivideFaults (1.0 + y) f

/-- The bell curve squares the distance and divides by the square of the deviation. -/
def GaussFaults (x mean deviation : α) (f : Fault) : Prop :=
  SquareFaults (x - mean) f ∨
    ∃ y, square (x - mean) = .ok y ∧
      (DivideFaults (2.0 * deviation * deviation) f ∨
        ∃ q, divide (-y) (2.0 * deviation * deviation) = .ok q ∧ ApplyFaults .exp q f)

/-- Between two points of the same abscissa there is no line, and outside the points there is none. -/
def InterpolateFaults (points : List (α × α)) (x : α) (f : Fault) : Prop :=
  let upper := bisect (fun i => decide (x < (points.map Prod.fst).getD i nan)) 0 points.length
  match points[upper - 1]?, points[upper]? with
  | some (x₀, _), some (x₁, _) => DivideFaults (x₁ - x₀) f
  | _, _ => f = .index

theorem ok_ne_error {β : Type} (b : β) (f : Fault) : (Except.ok b : Except Fault β) = .error f ↔ False := by
  simp

theorem ite_eq_error_congr {β : Type} {c : Prop} [Decidable c] {x y : Except Fault β} {f : Fault} {P Q : Prop}
    (hx : x = .error f ↔ P) (hy : y = .error f ↔ Q) :
    (if c then x else y) = .error f ↔ if c then P else Q := by
  by_cases h : c
  · rwa [if_pos h, if_pos h]
  · rwa [if_neg h, if_neg h]

theorem bind_ok_eq_error_iff {β γ : Type} {x : Except Fault β} {g : β → γ} {f : Fault} :
    (do let b ← x; Except.ok (g b)) = .error f ↔ x = .error f := by
  simp only [bind_eq_error_iff, ok_ne_error, and_false, exists_false, or_false]

theorem squared_eq_error_iff {γ : Type} {distance width : α} {f : Fault} {g : α → γ} :
    (do let q ← divide distance width; let y ← square q; return g y) = .error f ↔
      SquaredFaults distance width f := by
  simp only [bind_eq_error_iff, divide_eq_error_iff, square_eq_error_iff, pure_eq_ok, ok_ne_error,
    and_false, exists_false, or_false, SquaredFaults]

theorem sCurve_eq_error_iff {x start stop : α} {f : Fault} :
    sCurve x start stop = .error f ↔ ParabolaFaults x start stop f := by
  refine ite_eq_error_congr (ok_ne_error _ f) ?_
  refine ite_eq_error_congr squared_eq_error_iff ?_
  exact ite_eq_error_congr squared_eq_error_iff (ok_ne_error _ f)

theorem zCurve_eq_error_iff {x start stop : α} {f : Fault} :
    zCurve x start stop = .error f ↔ ParabolaFaults x start stop f := by
  refine ite_eq_error_congr (ok_ne_error _ f) ?_
  refine ite_eq_error_congr squared_eq_error_iff ?_
  exact ite_eq_error_congr squared_eq_error_iff (ok_ne_error _ f)

theorem logistic_eq_error_iff {x inflection slope : α} {f : Fault} :
    logistic x inflection slope = .error f ↔ LogisticFaults x inflection slope f := by
  refine ite_eq_error_congr (ok_ne_error _ f) ?_
  simp only [bind_eq_error_iff, apply_eq_error_iff, divide_eq_error_iff]

theorem gaussCurve_eq_error_iff {x mean deviation : α} {f : Fault} :
    gaussCurve x mean deviation = .error f ↔ GaussFaults x mean deviation f := by
  simp only [gaussCurve, GaussFaults, bind_eq_error_iff, square_eq_error_iff, divide_eq_error_iff,
    apply_eq_error_iff]

theorem interpolate_eq_error_iff {points : List (α × α)} {x : α} {f : Fault} :
    interpolate points x = .error f ↔ InterpolateFaults points x f := by
  unfold interpolate InterpolateFaults
  simp only
  -- what the search finds does not matter, only whether there are points on both sides
  generalize bisect (fun i => decide (x < (points.map Prod.fst).getD i nan)) 0 points.length = upper
  rcases points[upper - 1]? with _ | ⟨x₀, y₀⟩
  · exact ⟨fun h => (Except.error.inj h).symm, fun h => congrArg Except.error h.symm⟩
  · rcases points[upper]? with _ | ⟨x₁, y₁⟩
    · exact ⟨fun h => (Except.error.inj h).symm, fun h => congrArg Except.error h.symm⟩
    · exact rescale_eq_error_iff

/-! ## §2 Shapes -/

/-- The steps at which the degree of a shape can fault; all other quotients are guarded. -/
def Faults (s : Shape α) (x : α) (f : Fault) : Prop :=
  match s with
  | bell center width slope =>
    near width 0.0 = false ∧
      ∃ q, divide (x - center) width = .ok q ∧
        (PowerFaults (abs q) (2.0 * slope) f ∨
          ∃ y, power (abs q) (2.0 * slope) = .ok y ∧ DivideFaults (1.0 + y) f)
  | binary .. | rectangle .. => False
  | concave i e =>
    if atMost i e then below x e = true ∧ DivideFaults (2.0 * e - i - x) f
    else above x e = true ∧ DivideFaults (i - 2.0 * e + x) f
  | cosine center width =>
    (below x (center - 0.5 * width) || above x (center + 0.5 * width)) = false ∧
      (DivideFaults width f ∨
        ∃ q, divide 2.0 width = .ok q ∧ ApplyFaults .cos (q * pi * (x - center)) f)
  | discrete points =>
    match points.head?, points.getLast? with
    | some (firstX, _), some (lastX, _) =>
      atMost x firstX = false ∧ atLeast x lastX = false ∧ InterpolateFaults points x f
    | _, _ => f = .index
  | gaussian mean deviation => near deviation 0.0 = false ∧ GaussFaults x mean deviation f
  | gaussianProduct meanA deviationA meanB deviationB =>
    (below x meanA && near deviationA 0.0) = false ∧
      ((below x meanA = true ∧ GaussFaults x meanA deviationA f) ∨
        (below x meanA = true → ∃ y, gaussCurve x meanA deviationA = .ok y) ∧
          above x meanB = true ∧ near deviationB 0.0 = false ∧ GaussFaults x meanB deviationB f)
  | piShape bottomLeft topLeft topRight bottomRight =>
    ParabolaFaults x bottomLeft topLeft f ∨
      ∃ y, sCurve x bottomLeft topLeft = .ok y ∧ ParabolaFaults x topRight bottomRight f
  | ramp start stop =>
    near start stop = false ∧
      if below start stop then atMost x start = false ∧ atLeast x stop = false ∧ DivideFaults (stop - start) f
      else atLeast x start = false ∧ atMost x stop = false ∧ DivideFaults (start - stop) f
  | sShape start stop | zShape start stop => ParabolaFaults x start stop f
  | sigmoid inflection slope => LogisticFaults x inflection slope f
  | sigmoidDifference left rising falling right | sigmoidProduct left rising falling right =>
    LogisticFaults x left rising f ∨
      ∃ y, logistic x left rising = .ok y ∧ LogisticFaults x right falling f
  | spike center width =>
    near width 0.0 = false ∧
      ∃ q, divide 10.0 width = .ok q ∧ ApplyFaults .exp (-abs (q * (x - center))) f
  | trapezoid a b c d =>
    (below x a || above x d) = false ∧
      if below x b then (a == -inf) = false ∧ DivideFaults (b - a) f
      else atMost x c = false ∧ below x d = true ∧ (d == inf) = false ∧ DivideFaults (d - c) f
  | triangle a b c =>
    (below x a || above x c) = false ∧ near x b = false ∧
      if below x b then (a == -inf) = false ∧ DivideFaults (b - a) f
      else (c == inf) = false ∧ DivideFaults (c - b) f

/-- A width that is not near zero can be divided by. -/
theorem not_divideFaults_of_near {width : α} {f : Fault} (h : near width 0.0 = false) :
    ¬DivideFaults width f := by
  rintro ⟨hzero, -⟩
  simp [near, nearWithin, hzero] at h

theorem degree_eq_error_iff {s : Shape α} {height x : α} {f : Fault} :
    s.degree height x = .error f ↔ s.Faults x f := by
  cases s with
  | bell center width slope =>
    simp only [degree, Faults]
    cases hwidth : near width 0.0 with
    | true => simp
    | false =>
      -- the guard of the whole shape also guards the quotient
      have hdivide := not_divideFaults_of_near (f := f) hwidth
      simp [bind_eq_error_iff, divide_eq_error_iff, power_eq_error_iff, hdivide]
  | binary start direction =>
    simp only [degree, Faults]
    split
    · simp
    · split <;> simp
  | concave i e =>
    simp only [degree, Faults]
    cases atMost i e with
    | true => cases below x e <;> simp [divide_eq_error_iff]
    | false => cases above x e <;> simp [divide_eq_error_iff]
  | cosine center width =>
    simp only [degree, Faults]
    cases (below x (center - 0.5 * width) || above x (center + 0.5 * width)) with
    | true => simp
    | false => simp [bind_eq_error_iff, divide_eq_error_iff, apply_eq_error_iff]
  | discrete points =>
    simp only [degree, Faults]
    rcases points.head? with _ | ⟨firstX, firstY⟩
    · simp [eq_comm]
    · rcases points.getLast? with _ | ⟨lastX, lastY⟩
      · simp [eq_comm]
      · dsimp only
        cases atMost x firstX <;> cases atLeast x lastX <;>
          simp [bind_ok_eq_error_iff, interpolate_eq_error_iff]
  | gaussian mean deviation =>
    simp only [degree, Faults]
    cases near deviation 0.0 <;> simp [bind_ok_eq_error_iff, gaussCurve_eq_error_iff]
  | gaussianProduct meanA deviationA meanB deviationB =>
    simp only [degree, Faults]
    -- each half has its own guard, and the right one is looked at after the left one has a value
    cases below x meanA <;> cases near deviationA 0.0 <;> cases above x meanB <;>
      cases near deviationB 0.0 <;> simp [bind_eq_error_iff, gaussCurve_eq_error_iff]
  | piShape bottomLeft topLeft topRight bottomRight =>
    simp [degree, Faults, bind_eq_error_iff, sCurve_eq_error_iff, zCurve_eq_error_iff]
  | ramp start stop =>
    simp only [degree, Faults]
    cases near start stop with
    | true => simp
    | false =>
      cases below start stop with
      | true => cases atMost x start <;> cases atLeast x stop <;> simp [divide_eq_error_iff]
      | false => cases atLeast x start <;> cases atMost x stop <;> simp [divide_eq_error_iff]
  | rectangle start stop => simp [degree, Faults]
  | sShape start stop => simp [degree, Faults, bind_ok_eq_error_iff, sCurve_eq_error_iff]
  | sigmoid inflection slope => simp [degree, Faults, bind_ok_eq_error_iff, logistic_eq_error_iff]
  | sigmoidDifference left rising falling right =>
    simp [degree, Faults, bind_eq_error_iff, logistic_eq_error_iff]
  | sigmoidProduct left rising falling right =>
    simp [degree, Faults, bind_eq_error_iff, logistic_eq_error_iff]
  | spike center width =>
    simp only [degree, Faults]
    cases hwidth : near width 0.0 with
    | true => simp
    | false =>
      have hdivide := not_divideFaults_of_near (f := f) hwidth
      simp [bind_eq_error_iff, divide_eq_error_iff, apply_eq_error_iff, hdivide]
  | trapezoid a b c d =>
    simp only [degree, Faults]
    cases (below x a || above x d) with
    | true => simp
    | false =>
      cases below x b with
      | true => cases a == -inf <;> simp [bind_ok_eq_error_iff, divide_eq_error_iff]
      | false =>
        cases atMost x c <;> cases below x d <;> cases d == inf <;> simp [divide_eq_error_iff]
  | triangle a b c =>
    simp only [degree, Faults]
    cases (below x a || above x c) with
    | true => simp
    | false =>
      cases near x b with
      | true => simp
      | false =>
        cases below x b with
        | true => cases a == -inf <;> simp [divide_eq_error_iff]
        | false => cases c == inf <;> simp [divide_eq_error_iff]
  | zShape start stop => simp [degree, Faults, bind_ok_eq_error_iff, zCurve_eq_error_iff]

/-! ## §3 Inverses -/

/-- The steps at which the inverse of a monotonic shape can fault. -/
def InverseFaults (s : Shape α) (w : α) (f : Fault) : Prop :=
  match s with
  | ramp .. => DivideFaults (1.0 - 0.0 : α) f
  | sShape .. =>
    inUnitInterval w = true ∧ ApplyFaults .sqrt (if atMost w 0.5 then 0.5 * w else 0.5 * (1.0 - w)) f
  | zShape .. =>
    inUnitInterval w = true ∧ ApplyFaults .sqrt (if atLeast w 0.5 then 0.5 * (1.0 - w) else 0.5 * w) f
  | sigmoid _ slope =>
    near w 1.0 = false ∧ near w 0.0 = false ∧ inUnitInterval w = true ∧
      ∃ q, divide 1.0 w = .ok q ∧
        (ApplyFaults .log (q - 1.0) f ∨ ∃ y, apply .log (q - 1.0) = .ok y ∧ DivideFaults (-slope) f)
  | concave .. => DivideFaults w f
  | _ => False

theorem inverse_eq_error_iff {s : Shape α} {w minimum maximum : α} {f : Fault} :
    s.inverse w minimum maximum = .error f ↔ s.InverseFaults w f := by
  cases s with
  | ramp start stop => exact rescale_eq_error_iff
  | sShape start stop =>
    simp only [inverse, InverseFaults]
    cases inUnitInterval w <;> cases atMost w 0.5 <;> simp [bind_ok_eq_error_iff, apply_eq_error_iff]
  | zShape start stop =>
    simp only [inverse, InverseFaults]
    cases inUnitInterval w <;> cases atLeast w 0.5 <;> simp [bind_ok_eq_error_iff, apply_eq_error_iff]
  | sigmoid inflection slope =>
    simp only [inverse, InverseFaults]
    cases near w 1.0 with
    | true => simp
    | false =>
      cases hzero : near w 0.0 with
      | true => simp
      | false =>
        have hdivide := not_divideFaults_of_near (f := f) hzero
        cases inUnitInterval w <;>
          simp [bind_eq_error_iff, divide_eq_error_iff, apply_eq_error_iff, hdivide]
  | concave i e => simp [inverse, InverseFaults, bind_ok_eq_error_iff, divide_eq_error_iff]
  | _ => simp [inverse, InverseFaults]

end Shape

/-! ## §4 Formulas -/

namespace Formula.Expr

/-- The only steps of a formula that can fault are remainders; everything else is settled. -/
def Faults (scope : Valuation α) : Expr α → Fault → Prop
  | literal _, _ | reference _, _ => False
  | unary _ operand, f => operand.Faults scope f
  | binary operator left right, f =>
    left.Faults scope f ∨
      ∃ a, left.eval scope = .ok a ∧
        (right.Faults scope f ∨
          ∃ b, right.eval scope = .ok b ∧
            operator = .modulo ∧ (b == 0.0) = false ∧ RemainderFaults a b f)
  | apply _ argument, f => argument.Faults scope f
  | apply₂ _ first second, f =>
    first.Faults scope f ∨ ∃ a, first.eval scope = .ok a ∧ second.Faults scope f

theorem binary_eq_error_iff {operator : BinaryOperator} {a b : α} {f : Fault} :
    operator.eval a b = .error f ↔
      operator = .modulo ∧ (b == 0.0) = false ∧ RemainderFaults a b f := by
  cases operator with
  | modulo =>
    simp only [BinaryOperator.eval, modulo, true_and]
    cases b == 0.0 <;> simp [remainder_eq_error_iff]
  | _ => simp [BinaryOperator.eval]

theorem escapesWhen_eval (scope : Valuation α) (e : Expr α) :
    EscapesWhen (e.eval scope) (e.Faults scope) := by
  induction e with
  | literal value => exact .ok value
  | reference name =>
    unfold eval
    split
    · exact .ok _
    · split
      · exact .ok _
      · exact .evaluation _
  | unary operator operand ih => exact ih.bind_ok
  | binary operator left right ihleft ihright =>
    exact ihleft.bind fun a => ihright.bind fun b => .liftM fun f => binary_eq_error_iff
  | apply f argument ih => exact ih.bind_ok
  | apply₂ f first second ihfirst ihsecond => exact ihfirst.bind fun a => ihsecond.bind_ok

end Formula.Expr

/-! ## §5 Terms -/

namespace Term

/-- A term faults where its shape has no degree or its formula no value. -/
def Faults (around : Option (Surroundings α)) (t : Term α) (x : α) (f : Fault) : Prop :=
  match t.body with
  | .shape s _ => isNaN x = false ∧ s.isBlank = false ∧ s.Faults x f
  | .constant _ | .linear _ => False
  | .formula b =>
    ∃ root, b.root = some root ∧ root.Faults (fun n => scope around x n <|> b.extra.lookup n) f

/-- A term that can be inverted faults where its shape has no inverse. -/
def InvertFaults (t : Term α) (w : α) (f : Fault) : Prop :=
  match t.body with
  | .shape s _ => s.isMonotonic = true ∧ s.InverseFaults w f
  | _ => False

theorem escapesWhen_membership (around : Option (Surroundings α)) (t : Term α) (x : α) :
    EscapesWhen (t.membership around x) (t.Faults around x) := by
  obtain ⟨id, name, body⟩ := t
  cases body with
  | shape s height =>
    simp only [membership, Shape.membership]
    -- an unknown value has an unknown degree, before the shape is looked at
    cases hnan : isNaN x with
    | true => exact (EscapesWhen.ok nan).congr fun f => by simp [Faults, hnan]
    | false =>
      cases hblank : s.isBlank with
      | true => exact (EscapesWhen.evaluation _).congr fun f => by simp [Faults, hblank]
      | false =>
        exact (EscapesWhen.liftM fun f => Shape.degree_eq_error_iff).congr fun f => by
          simp [Faults, hnan, hblank]
  | constant value => exact .ok value
  | linear coefficients =>
    cases around with
    | none => exact .evaluation _
    | some s => exact .ok _
  | formula b =>
    simp only [membership, FormulaBody.eval]
    cases hroot : b.root with
    | none => exact (EscapesWhen.evaluation _).congr fun f => by simp [Faults, hroot]
    | some root =>
      exact (Formula.Expr.escapesWhen_eval _ root).congr fun f => by simp [Faults, hroot]

theorem escapesWhen_invert (t : Term α) (w minimum maximum : α) :
    EscapesWhen (t.invert w minimum maximum) (t.InvertFaults w) := by
  obtain ⟨id, name, body⟩ := t
  cases body with
  | shape s height =>
    simp only [invert, Shape.invert]
    cases hmonotonic : s.isMonotonic with
    | true =>
      exact (EscapesWhen.liftM fun f => Shape.inverse_eq_error_iff).congr fun f => by
        simp [InvertFaults, hmonotonic]
    | false => exact (EscapesWhen.evaluation _).congr fun f => by simp [InvertFaults, hmonotonic]
  | constant value => exact .evaluation _
  | linear coefficients => exact .evaluation _
  | formula b => exact .evaluation _

end Term

end FuzzyInference
