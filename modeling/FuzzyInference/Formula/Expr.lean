import FuzzyInference.Scalar.Floating
import FuzzyInference.Error

/-!
# Expressions of formulas

The tree of a formula: numbers, names, operators and functions. An expression is evaluated in a scope,
which gives values to names. Arithmetic is that of the scalars: a quotient by zero is infinite or `nan`, and
a function outside its domain is `nan`.

## Main definitions

* `Expr`: the expressions over a type of scalars
* `Expr.eval`: the value in a scope
* `Expr.text`: the fully parenthesised text
-/

namespace FuzzyInference.Formula

open Scalar

/-! ## §1 Operators -/

/-- Operators before their operand. -/
inductive UnaryOperator
  | minus | tilde | plus | bang | not
deriving DecidableEq, Repr

def UnaryOperator.text : UnaryOperator → String
  | minus => "-"
  | tilde => "~"
  | plus => "+"
  | bang => "!"
  | not => "not"

/-- Operators between their operands. -/
inductive BinaryOperator
  | power
  | times | dividedBy | modulo
  | plus | minus
  | less | lessEq | greater | greaterEq | equal | notEqual
  | and | or
deriving DecidableEq, Repr

def BinaryOperator.text : BinaryOperator → String
  | power => "^"
  | times => "*"
  | dividedBy => "/"
  | modulo => "%"
  | plus => "+"
  | minus => "-"
  | less => "<"
  | lessEq => "<="
  | greater => ">"
  | greaterEq => ">="
  | equal => "=="
  | notEqual => "!="
  | and => "and"
  | or => "or"

/-! ## §2 Functions -/

/-- Functions of one argument. -/
inductive UnaryFunction
  | elementary (f : Elementary)
  | abs | fabs | ceil | floor
  /-- To the nearest whole number, a half away from zero. -/
  | round
deriving DecidableEq, Repr

/-- Functions of two arguments. -/
inductive BinaryFunction
  | arctan2 | remainder | power | max | min
  | greater | greaterEq | less | lessEq | equal | notEqual
deriving DecidableEq, Repr

def elementaryName : Elementary → String
  | .acos => "acos"
  | .asin => "asin"
  | .atan => "atan"
  | .acosh => "acosh"
  | .asinh => "asinh"
  | .atanh => "atanh"
  | .cos => "cos"
  | .cosh => "cosh"
  | .exp => "exp"
  | .expm1 => "expm1"
  | .log => "log"
  | .log10 => "log10"
  | .log1p => "log1p"
  | .sin => "sin"
  | .sinh => "sinh"
  | .sqrt => "sqrt"
  | .tan => "tan"
  | .tanh => "tanh"

def UnaryFunction.name : UnaryFunction → String
  | elementary f => elementaryName f
  | abs => "abs"
  | fabs => "fabs"
  | ceil => "ceil"
  | floor => "floor"
  | round => "round"

def BinaryFunction.name : BinaryFunction → String
  | arctan2 => "atan2"
  | remainder => "fmod"
  | power => "pow"
  | max => "max"
  | min => "min"
  | greater => "gt"
  | greaterEq => "ge"
  | less => "lt"
  | lessEq => "le"
  | equal => "eq"
  | notEqual => "neq"

/-- A function of a formula. -/
inductive Function
  | unary (f : UnaryFunction)
  | binary (f : BinaryFunction)
deriving DecidableEq, Repr

namespace Function

def name : Function → String
  | unary f => f.name
  | binary f => f.name

/-- The number of arguments. -/
def arity : Function → Nat
  | unary _ => 1
  | binary _ => 2

/-- All functions. -/
def all : List Function :=
  ([.acos, .asin, .atan, .acosh, .asinh, .atanh, .cos, .cosh, .exp, .expm1, .log, .log10, .log1p, .sin,
    .sinh, .sqrt, .tan, .tanh].map fun f => unary (.elementary f)) ++
  ([.abs, .fabs, .ceil, .floor, .round].map unary) ++
  ([.arctan2, .remainder, .power, .max, .min, .greater, .greaterEq, .less, .lessEq, .equal,
    .notEqual].map binary)

/-- The function of that name. -/
def ofName? (name : String) : Option Function := all.find? fun f => f.name == name

end Function

/-! ## §3 Expressions -/

/-- The tree of a formula. -/
inductive Expr (α : Type)
  | literal (value : α)
  /-- A name, whose value is sought when the expression is evaluated. -/
  | reference (name : String)
  | unary (operator : UnaryOperator) (operand : Expr α)
  | binary (operator : BinaryOperator) (left right : Expr α)
  | apply (f : UnaryFunction) (argument : Expr α)
  | apply₂ (f : BinaryFunction) (first second : Expr α)
deriving Repr

instance {α : Type} [Inhabited α] : Inhabited (Expr α) := ⟨.literal default⟩

variable {α : Type} [Scalar α]

/-- A truth value as a scalar. -/
def truth (b : Bool) : α := if b then 1.0 else 0.0

/-- The scalar counts as true. -/
def isTrue (x : α) : Bool := near x 1.0

/-- A checked operation inside a formula: a result that is too large is infinite, and any other refusal is
`nan`. -/
def settle : Except Fault α → α
  | .ok x => x
  | .error .overflow => inf
  | .error _ => nan

/-- A whole number that rounding yields; `nan` stays, and an infinity of either sign is infinite. -/
def whole (f : α → α) (x : α) : α :=
  if isNaN x then nan else if isInf x then inf else f x

/-- To the nearest whole number, a half away from zero. -/
def round (x : α) : α := if 0.0 ≤ x then whole floor (x + 0.5) else whole ceil (x - 0.5)

/-- The remainder, which is `nan` for a divisor of zero. -/
def modulo (a b : α) : Except Fault α := if b == 0.0 then .ok nan else remainder a b

def UnaryOperator.eval : UnaryOperator → α → α
  | minus, x | tilde, x => -x
  | plus, x => x
  | bang, x | not, x => truth (!isTrue x)

def BinaryOperator.eval : BinaryOperator → α → α → Except Fault α
  | power, a, b => .ok (settle (Scalar.power a b))
  | times, a, b => .ok (a * b)
  | dividedBy, a, b => .ok (a / b)
  | modulo, a, b => Formula.modulo a b
  | plus, a, b => .ok (a + b)
  | minus, a, b => .ok (a - b)
  | less, a, b => .ok (truth (decide (a < b)))
  | lessEq, a, b => .ok (truth (decide (a ≤ b)))
  | greater, a, b => .ok (truth (decide (b < a)))
  | greaterEq, a, b => .ok (truth (decide (b ≤ a)))
  | equal, a, b => .ok (truth (near a b))
  | notEqual, a, b => .ok (truth (!near a b))
  | and, a, b => .ok (truth (isTrue a && isTrue b))
  | or, a, b => .ok (truth (isTrue a || isTrue b))

def UnaryFunction.eval : UnaryFunction → α → α
  | elementary f, x => settle (Scalar.apply f x)
  | abs, x | fabs, x => Scalar.abs x
  | ceil, x => whole Scalar.ceil x
  | floor, x => whole Scalar.floor x
  | round, x => Formula.round x

def BinaryFunction.eval : BinaryFunction → α → α → α
  | arctan2, a, b => Scalar.arctan2 a b
  | remainder, a, b => settle (Formula.modulo a b)
  | power, a, b => settle (Scalar.power a b)
  | max, a, b => greatest a b
  | min, a, b => least a b
  | greater, a, b => truth (decide (b < a))
  | greaterEq, a, b => truth (decide (b ≤ a))
  | less, a, b => truth (decide (a < b))
  | lessEq, a, b => truth (decide (a ≤ b))
  | equal, a, b => truth (near a b)
  | notEqual, a, b => truth (!near a b)

/-- Values for names. -/
abbrev Valuation (α : Type) := String → Option α

/-- The names that stand for a number unless a scope gives them another value. -/
def constant? : Valuation α
  | "pi" => some pi
  | "e" => some euler
  | _ => none

namespace Expr

/-- The value of an expression, operands from left to right. A name without a value stops it. -/
def eval (scope : Valuation α) : Expr α → Except Error α
  | literal value => .ok value
  | reference name =>
    match scope name with
    | some value => .ok value
    | none =>
      match constant? name with
      | some value => .ok value
      | none => .error (.evaluation (.unknownVariable name))
  | unary operator operand => do return operator.eval (← operand.eval scope)
  | binary operator left right => do
    let a ← left.eval scope
    let b ← right.eval scope
    operator.eval a b
  | apply f argument => do return f.eval (← argument.eval scope)
  | apply₂ f first second => do
    let a ← first.eval scope
    let b ← second.eval scope
    return f.eval a b

/-- The text of an expression, with parentheses around every operator. -/
def text : Expr Float → String
  | literal value => Decimal.shortestText value
  | reference name => name
  | unary operator operand => "(" ++ operator.text ++ " " ++ operand.text ++ ")"
  | binary operator left right =>
    "(" ++ left.text ++ " " ++ operator.text ++ " " ++ right.text ++ ")"
  | apply f argument => f.name ++ "(" ++ argument.text ++ ")"
  | apply₂ f first second => f.name ++ "(" ++ first.text ++ ", " ++ second.text ++ ")"

end Expr

end FuzzyInference.Formula
