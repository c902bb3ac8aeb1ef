import FuzzyInference.Formula.Expr
import FuzzyInference.Formula.Token

/-!
# Reading formulas

An expression is read from tokens by recursive descent. Five levels of operators between operands group to
the left, from the loosest: `or`, `and`, comparisons, sums, products. Powers bind tighter and group to the
right; operators before an operand bind tightest. Every reader hands back the tokens that it leaves, with a
proof that they are fewer than it was given, and that bounds the recursion.

## Main definitions

* `parse`: the expression of a formula
-/

namespace FuzzyInference.Formula

/-! ## §1 Levels -/

/-- The tightest level of operators between operands that group to the left. -/
def tightest : Nat := 4

/-- The operator of a level that a token stands for. -/
def operatorAt? : Nat → Token → Option BinaryOperator
  | 0, .word "or" => some .or
  | 1, .word "and" => some .and
  | 2, .symbol .less => some .less
  | 2, .symbol .lessEq => some .lessEq
  | 2, .symbol .greater => some .greater
  | 2, .symbol .greaterEq => some .greaterEq
  | 2, .symbol .equal => some .equal
  | 2, .symbol .notEqual => some .notEqual
  | 3, .symbol .plus => some .plus
  | 3, .symbol .minus => some .minus
  | 4, .symbol .star => some .times
  | 4, .symbol .slash => some .dividedBy
  | 4, .symbol .percent => some .modulo
  | _, _ => none

/-- The operator before an operand that a token stands for. -/
def unaryOperator? : Token → Option UnaryOperator
  | .symbol .minus => some .minus
  | .symbol .plus => some .plus
  | .symbol .bang => some .bang
  | .symbol .tilde => some .tilde
  | .word "not" => some .not
  | _ => none

/-! ## §2 What a reader leaves -/

/-- Fewer tokens than were given. -/
abbrev Fewer (ts : List Token) := { rest : List Token // rest.length < ts.length }

/-- At most as many tokens as were given. -/
abbrev AtMost (ts : List Token) := { rest : List Token // rest.length ≤ ts.length }

/-- An expression, and what is left of the tokens. -/
abbrev Reading (ts : List Token) := Except FormulaFault (Expr Float × Fewer ts)

/-- The first token must be the symbol. -/
def expect (s : Symbol) (ts : List Token) : Except FormulaFault (Fewer ts) :=
  match ts with
  | [] => .error .unexpectedEnd
  | t :: rest =>
    if t = .symbol s then .ok ⟨rest, by simp⟩
    else .error (.expected (Token.symbol s).text t.text)

/-- The call of a function with the arguments read for it. -/
def call (f : Function) (arguments : List (Expr Float)) : Except FormulaFault (Expr Float) :=
  match f, arguments with
  | .unary f, [a] => .ok (.apply f a)
  | .binary f, [a, b] => .ok (.apply₂ f a b)
  | f, arguments => .error (.argumentCount f.name f.arity arguments.length)

/-! ## §3 The readers -/

mutual

/-- Operands of a level, joined by its operators. -/
def chain (level : Nat) (ts : List Token) : Reading ts :=
  match operand level ts with
  | .error e => .error e
  | .ok (left, ⟨rest, h⟩) =>
    match chainRest level left rest with
    | .error e => .error e
    | .ok (e, ⟨rest', h'⟩) => .ok (e, ⟨rest', by omega⟩)
-- a chain ranks above its operands, and these above the chains of the next level
termination_by 16 * ts.length + (7 + 2 * (tightest - level))
decreasing_by all_goals omega

/-- An operand of a level: the next tighter level, or a power. -/
def operand (level : Nat) (ts : List Token) : Reading ts :=
  if level < tightest then chain (level + 1) ts else power ts
termination_by 16 * ts.length + (6 + 2 * (tightest - level))
decreasing_by all_goals omega

/-- The operators of a level that follow a left operand, each with its right operand. -/
def chainRest (level : Nat) (left : Expr Float) (ts : List Token) :
    Except FormulaFault (Expr Float × AtMost ts) :=
  match ts with
  | [] => .ok (left, ⟨[], by simp⟩)
  | t :: rest =>
    match operatorAt? level t with
    | none => .ok (left, ⟨t :: rest, by simp⟩)
    | some operator =>
      match operand level rest with
      | .error e => .error e
      | .ok (right, ⟨rest', h⟩) =>
        match chainRest level (.binary operator left right) rest' with
        | .error e => .error e
        | .ok (e, ⟨rest'', h'⟩) => .ok (e, ⟨rest'', by simp only [List.length_cons]; omega⟩)
termination_by 16 * ts.length
decreasing_by
  · simp only [tightest, List.length_cons]; omega
  · simp only [List.length_cons]; omega

/-- A base, raised to the power that may follow it. -/
def power (ts : List Token) : Reading ts :=
  match unary ts with
  | .error e => .error e
  | .ok (base, ⟨rest, h⟩) =>
    match rest with
    | .symbol .caret :: rest' =>
      -- the exponent may be a power in turn
      match power rest' with
      | .error e => .error e
      | .ok (exponent, ⟨rest'', h'⟩) =>
        .ok (.binary .power base exponent, ⟨rest'', by simp only [List.length_cons] at h; omega⟩)
    | rest => .ok (base, ⟨rest, h⟩)
termination_by 16 * ts.length + 5
decreasing_by
  · omega
  · simp only [List.length_cons] at h; omega

/-- Operators before an operand. -/
def unary (ts : List Token) : Reading ts :=
  match ts with
  | [] => .error .unexpectedEnd
  | t :: rest =>
    match unaryOperator? t with
    | none => primary t rest
    | some operator =>
      match unary rest with
      | .error e => .error e
      | .ok (operand, ⟨rest', h⟩) =>
        .ok (.unary operator operand, ⟨rest', by simp only [List.length_cons]; omega⟩)
termination_by 16 * ts.length + 4
decreasing_by all_goals (simp only [List.length_cons]; omega)

/-- A number, a name, a call, or an expression in parentheses; the first token is given apart. -/
def primary (t : Token) (ts : List Token) : Reading (t :: ts) :=
  match t with
  | .symbol .opening =>
    match chain 0 ts with
    | .error e => .error e
    | .ok (e, ⟨rest, h⟩) =>
      match expect .closing rest with
      | .error e => .error e
      | .ok ⟨rest', h'⟩ => .ok (e, ⟨rest', by simp only [List.length_cons]; omega⟩)
  | .number digits => .ok (.literal ((Scalar.read? digits).getD Scalar.nan), ⟨ts, by simp⟩)
  | .word name =>
    -- where an operand is due, these two words lack the one on their left
    if name = "and" || name = "or" then .error (.missingLeftOperand name)
    else
      match ts with
      | .symbol .opening :: rest =>
        match Function.ofName? name with
        | none => .error (.unknownFunction name)
        | some f =>
          match arguments rest with
          | .error e => .error e
          | .ok (args, ⟨rest', h⟩) =>
            match call f args with
            | .error e => .error e
            | .ok e => .ok (e, ⟨rest', by simp only [List.length_cons]; omega⟩)
      | ts => .ok (.reference name, ⟨ts, by simp⟩)
  | .symbol s => .error (.unexpectedToken (Token.symbol s).text)
termination_by 16 * ts.length + 16
decreasing_by
  · simp only [tightest]; omega
  · simp only [List.length_cons]; omega

/-- The arguments of a call and the closing parenthesis. -/
def arguments (ts : List Token) : Except FormulaFault (List (Expr Float) × Fewer ts) :=
  match ts with
  | .symbol .closing :: rest => .ok ([], ⟨rest, by simp⟩)
  | ts =>
    match chain 0 ts with
    | .error e => .error e
    | .ok (first, ⟨rest, h⟩) =>
      match argumentsRest rest with
      | .error e => .error e
      | .ok (others, ⟨rest', h'⟩) => .ok (first :: others, ⟨rest', by omega⟩)
termination_by 16 * ts.length + 16
decreasing_by
  · simp only [tightest]; omega
  · omega

/-- The arguments after the first, each behind a comma, and the closing parenthesis. -/
def argumentsRest (ts : List Token) : Except FormulaFault (List (Expr Float) × Fewer ts) :=
  match ts with
  | .symbol .comma :: rest =>
    match chain 0 rest with
    | .error e => .error e
    | .ok (next, ⟨rest', h⟩) =>
      match argumentsRest rest' with
      | .error e => .error e
      | .ok (others, ⟨rest'', h'⟩) =>
        .ok (next :: others, ⟨rest'', by simp only [List.length_cons]; omega⟩)
  | ts =>
    match expect .closing ts with
    | .error e => .error e
    | .ok rest => .ok ([], rest)
termination_by 16 * ts.length
decreasing_by
  · simp only [tightest, List.length_cons]; omega
  · simp only [List.length_cons]; omega

end

/-- The expression that all tokens of a formula form. -/
def ofTokens (ts : List Token) : Except FormulaFault (Expr Float) :=
  match chain 0 ts with
  | .error e => .error e
  | .ok (e, ⟨[], _⟩) => .ok e
  | .ok (_, ⟨t :: _, _⟩) => .error (.unexpectedToken t.text)

/-- The expression of a formula. -/
def parse (formula : String) : Except Error (Expr Float) :=
  match tokenize formula with
  | .error e => .error e
  | .ok [] => .error (.configuration .emptyFormula)
  | .ok ts => (ofTokens ts).mapError fun e => .configuration (.formulaSyntax formula e)

end FuzzyInference.Formula
