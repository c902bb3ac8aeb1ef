import FuzzyInference.Proofs.Value
import FuzzyInference.Variable.Store

/-!
# What terms see

Of all terms only formulas can read outputs, by name, and linear terms and formulas are the only ones that read
inputs. A formula that names no output has the same value wherever it is evaluated during a cycle, and so
has every set and every output whose terms are of this kind.

The plan of this module:

* expressions, whose value depends only on the names that occur in them;
* terms that ignore the outputs around them;
* sets and outputs of such terms.

## Main statements

* `Formula.Expr.eval_congr`: an expression in two scopes
* `Term.membership_withoutOutputs`: a term that ignores outputs
* `OutputVariable.defuzzify_congr`: an output in two surroundings
-/

namespace FuzzyInference

open Scalar Formula

variable {α : Type}

/-! ## §1 Expressions -/

namespace Formula.Expr

/-- The names that occur in an expression. -/
def names : Expr α → List String
  | literal _ => []
  | reference name => [name]
  | unary _ operand => operand.names
  | binary _ left right => left.names ++ right.names
  | apply _ argument => argument.names
  | apply₂ _ first second => first.names ++ second.names

/-- The value of an expression depends only on the names that occur in it. -/
theorem eval_congr [Scalar α] {s t : Valuation α} {e : Expr α} (h : ∀ n ∈ e.names, s n = t n) :
    e.eval s = e.eval t := by
  induction e with
  | literal value => rfl
  | reference name => rw [eval, eval, h name (List.mem_singleton.2 rfl)]
  | unary operator operand ih => rw [eval, eval, ih h]
  | binary operator left right ihleft ihright =>
    have hleft := ihleft fun n hn => h n (List.mem_append_left _ hn)
    have hright := ihright fun n hn => h n (List.mem_append_right _ hn)
    rw [eval, eval, hleft, hright]
  | apply f argument ih => rw [eval, eval, ih h]
  | apply₂ f first second ihfirst ihsecond =>
    have hfirst := ihfirst fun n hn => h n (List.mem_append_left _ hn)
    have hsecond := ihsecond fun n hn => h n (List.mem_append_right _ hn)
    rw [eval, eval, hfirst, hsecond]

end Formula.Expr

namespace FormulaBody

/-- The names that occur in a formula, none before it is loaded. -/
def names (f : FormulaBody α) : List String := f.root.elim [] Expr.names

theorem eval_congr [Scalar α] {f : FormulaBody α} {s t : Valuation α} (h : ∀ n ∈ f.names, s n = t n)
    (name : String) : f.eval name s = f.eval name t := by
  unfold names at h
  unfold eval
  cases hroot : f.root with
  | none => rfl
  | some root =>
    rw [hroot] at h
    refine Expr.eval_congr fun n hn => ?_
    rw [h n hn]

end FormulaBody

/-! ## §2 Terms -/

namespace Term

/-- The variables that a term mentions: for a formula all names but `x`, which stands for its argument. -/
def mentioned (t : Term α) : List String :=
  match t.body with
  | .formula f => f.names.filter fun n => n ≠ "x"
  | _ => []

/-- The term mentions none of the variables of the given names. -/
def Ignores (t : Term α) (names : List Name) : Prop :=
  ∀ n ∈ t.mentioned, ∀ name ∈ names, (Name.text n == name) = false

end Term

namespace Surroundings

/-- The inputs alone. -/
def withoutOutputs (s : Surroundings α) : Surroundings α := { s with outputs := [] }

theorem value?_withoutOutputs {s : Surroundings α} {n : String}
    (h : ∀ name ∈ s.outputs.map Prod.fst, (Name.text n == name) = false) :
    s.value? n = s.withoutOutputs.value? n := by
  -- outputs come last and so are sought first, but none of them is found
  have hnone : s.outputs.reverse.lookup (Name.text n) = none := by
    rw [List.lookup_eq_none_iff]
    intro p hp
    have hname := h p.1 (List.mem_map_of_mem (List.mem_reverse.1 hp))
    rw [bne, hname]
    rfl
  rw [value?, value?, withoutOutputs, List.append_nil, List.reverse_append, List.lookup_append, hnone,
    Option.none_or]

end Surroundings

variable [Scalar α]

/-- A term that ignores the outputs around it has the same degrees without them. -/
theorem Term.membership_withoutOutputs {t : Term α} {s : Surroundings α}
    (h : t.Ignores (s.outputs.map Prod.fst)) :
    t.membership (some s) = t.membership (some s.withoutOutputs) := by
  obtain ⟨id, name, body⟩ := t
  cases body with
  | shape s height => rfl
  | constant value => rfl
  -- a linear term weights inputs only
  | linear coefficients => rfl
  | formula f =>
    funext x
    apply FormulaBody.eval_congr
    intro n hn
    unfold scope
    split
    · rfl
    next hx =>
      have hmentioned : n ∈ f.names.filter fun n => n ≠ "x" :=
        List.mem_filter.2 ⟨hn, decide_eq_true hx⟩
      exact Surroundings.value?_withoutOutputs (h n hmentioned)

/-! ## §3 Sets and outputs -/

section Congruence

variable {around other : Option (Surroundings α)}

theorem Activated.membership_congr {a : Activated α}
    (h : a.term.membership around = a.term.membership other) :
    a.membership around = a.membership other := by
  funext x
  rw [membership, membership, h]

theorem Aggregated.joinDegrees_congr {as : List (Activated α)}
    (h : ∀ a ∈ as, a.term.membership around = a.term.membership other) (aggregation : Option SNorm)
    (x before : α) : joinDegrees aggregation around x before as = joinDegrees aggregation other x before as := by
  induction as generalizing before with
  | nil => rfl
  | cons a as ih =>
    have hhead := Activated.membership_congr (h a List.mem_cons_self)
    have htail := ih fun b hb => h b (List.mem_cons_of_mem _ hb)
    simp only [joinDegrees, hhead, htail]

theorem addContributions_congr {as : List (Activated α)}
    (h : ∀ a ∈ as, a.term.membership around = a.term.membership other) (type : WeightedType)
    (minimum maximum : α) (aggregation : Option SNorm) (sums : α × α) :
    addContributions around type minimum maximum aggregation sums as =
      addContributions other type minimum maximum aggregation sums as := by
  induction as generalizing sums with
  | nil => rfl
  | cons a as ih =>
    have hhead : contribution around type minimum maximum a = contribution other type minimum maximum a := by
      -- an inverse is taken of the shape alone and sees nothing around it
      cases type with
      | takagiSugeno => exact congrFun (h a List.mem_cons_self) a.degree
      | automatic => rfl
      | tsukamoto => rfl
    have htail := ih fun b hb => h b (List.mem_cons_of_mem _ hb)
    simp only [addContributions, hhead, htail]

theorem Defuzzifier.defuzzify_congr (d : Defuzzifier) {s : Aggregated α}
    (h : ∀ a ∈ s.terms, a.term.membership around = a.term.membership other) (minimum maximum : α) :
    d.defuzzify around (.aggregated s) minimum maximum =
      d.defuzzify other (.aggregated s) minimum maximum := by
  cases d with
  | integral m resolution =>
    have hset : s.membership around = s.membership other := by
      funext x
      exact Aggregated.joinDegrees_congr h s.aggregation x 0.0
    have hmembership : (FuzzySet.aggregated s).membership around =
        (FuzzySet.aggregated s).membership other := hset
    simp only [defuzzify, hmembership]
  | weighted m type =>
    have hsums : weightedSums around type s minimum maximum = weightedSums other type s minimum maximum :=
      addContributions_congr h (type.resolve s) minimum maximum s.aggregation (0.0, 0.0)
    simp only [defuzzify, hsums]

/-- The value of an output depends on its surroundings only through the terms that were activated. -/
theorem OutputVariable.defuzzify_congr {v : OutputVariable α}
    (h : ∀ a ∈ v.fuzzyOutput.terms, a.term.membership around = a.term.membership other) :
    v.defuzzify around = v.defuzzify other := by
  have hraw : v.prepare.rawValue around = v.prepare.rawValue other := by
    unfold rawValue
    cases v.prepare.defuzzifier with
    | none => rfl
    | some d =>
      have hset := d.defuzzify_congr (s := v.prepare.fuzzyOutput) h v.prepare.minimum v.prepare.maximum
      simp only [hset]
  rw [defuzzify, defuzzify, hraw]

end Congruence

end FuzzyInference
