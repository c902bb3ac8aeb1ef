import FuzzyInference.Rule.Vocabulary
import FuzzyInference.Scalar.Floating

/-!
# Reading rules

A rule reads `if <antecedent> then <consequent> [with <weight>]`. The antecedent is read by recursive
descent: `not` binds tighter than `and`, and `and` tighter than `or`; both connectives group to the left,
and parentheses override. The consequent is a list of clauses `variable is [hedges] term` joined by `and`.

A word that names both a hedge and a term of the variable means the term.

## Main definitions

* `RuleText.split`: the parts of a rule
* `readCondition`: the tree of an antecedent
* `readConclusions`: the propositions of a consequent
-/

namespace FuzzyInference

/-! ## §1 Words -/

/-- Sets parentheses apart by spaces. -/
def padParentheses (cs : List Char) : List Char :=
  cs.flatMap fun c => if c = '(' || c = ')' then [' ', c, ' '] else [c]

/-- The words of an antecedent or consequent; a parenthesis is a word wherever it stands. -/
def ruleWords (s : String) : List String := (Text.wordsOf (padParentheses s.toList)).map String.ofList

/-! ## §2 Antecedents -/

namespace ConditionReader

/-- Fewer words than were given. -/
abbrev Fewer (ws : List String) := { rest : List String // rest.length < ws.length }

/-- A condition, and what is left of the words. -/
abbrev Reading (ws : List String) := Except AntecedentFault (Condition × Fewer ws)

/-- The hedges and the term that follow `variable is`. -/
def target (e : VocabularyEntry) (ws : List String) :
    Except AntecedentFault (List Hedge × Option TermRef × Fewer ws) :=
  match ws with
  | [] => .error .unexpectedEnd
  | w :: rest =>
    -- the term comes first, so that a hedge of its name is out of reach
    match e.term? w with
    | some t => .ok ([], some t, ⟨rest, by simp⟩)
    | none =>
      match Hedge.ofName? w with
      | none => .error (.unknownTerm w e.ref.name)
      -- what matches everything needs no term
      | some .any => .ok ([.any], none, ⟨rest, by simp⟩)
      | some h =>
        match target e rest with
        | .error fault => .error fault
        | .ok (hedges, t, ⟨rest', h'⟩) =>
          .ok (h :: hedges, t, ⟨rest', by simp only [List.length_cons]; omega⟩)

/-- A proposition; its first word is given apart. -/
def proposition (v : Vocabulary) (name : String) (ws : List String) : Reading (name :: ws) :=
  match v.find? name with
  | none => .error (.unknownVariable name)
  | some e =>
    match ws with
    | [] => .error .unexpectedEnd
    | w :: rest =>
      if w = "is" then
        match target e rest with
        | .error fault => .error fault
        | .ok (hedges, t, ⟨rest', h⟩) =>
          .ok (.proposition ⟨e.ref, hedges, t⟩, ⟨rest', by simp only [List.length_cons]; omega⟩)
      else .error (.missingIs name)

/-- Looser connectives rank higher. -/
def rank : Connective → Nat
  | .or => 4
  | .and => 2

mutual

/-- Conditions of one level joined by a connective: those joined by `or` are joined by `and` each, and those
are factors. -/
def chain (v : Vocabulary) (c : Connective) (ws : List String) : Reading ws :=
  match operand v c ws with
  | .error fault => .error fault
  | .ok (left, ⟨rest, h⟩) =>
    match chainRest v c left rest with
    | .error fault => .error fault
    | .ok (e, ⟨rest', h'⟩) => .ok (e, ⟨rest', by omega⟩)
termination_by 8 * ws.length + rank c
decreasing_by
  · cases c <;> simp [rank]
  · omega

/-- What the connective joins. -/
def operand (v : Vocabulary) (c : Connective) (ws : List String) : Reading ws :=
  match c with
  | .or => chain v .and ws
  | .and => factor v ws
termination_by 8 * ws.length + (rank c - 1)
decreasing_by all_goals simp [rank]

/-- The connectives that follow a left side, each with its right side. -/
def chainRest (v : Vocabulary) (c : Connective) (left : Condition) (ws : List String) :
    Except AntecedentFault (Condition × { rest : List String // rest.length ≤ ws.length }) :=
  match ws with
  | [] => .ok (left, ⟨[], by simp⟩)
  | w :: rest =>
    if w = c.word then
      match operand v c rest with
      | .error fault => .error fault
      | .ok (right, ⟨rest', h⟩) =>
        match chainRest v c (.join c left right) rest' with
        | .error fault => .error fault
        | .ok (e, ⟨rest'', h'⟩) => .ok (e, ⟨rest'', by simp only [List.length_cons]; omega⟩)
    else .ok (left, ⟨w :: rest, by simp⟩)
termination_by 8 * ws.length
decreasing_by
  · cases c <;> simp only [List.length_cons, rank] <;> omega
  · simp only [List.length_cons]; omega

/-- A negated factor, a condition in parentheses, or a proposition. -/
def factor (v : Vocabulary) (ws : List String) : Reading ws :=
  match ws with
  | [] => .error .unexpectedEnd
  | w :: rest =>
    if w = "not" then
      match factor v rest with
      | .error fault => .error fault
      | .ok (e, ⟨rest', h⟩) => .ok (.negation e, ⟨rest', by simp only [List.length_cons]; omega⟩)
    else if w = "(" then
      match chain v .or rest with
      | .error fault => .error fault
      | .ok (e, ⟨rest', h⟩) =>
        match rest' with
        | [] => .error .unexpectedEnd
        | ")" :: rest'' =>
          .ok (e, ⟨rest'', by simp only [List.length_cons] at h; simp only [List.length_cons]; omega⟩)
        | _ :: _ => .error .unclosed
    else proposition v w rest
termination_by 8 * ws.length
decreasing_by
  · simp only [List.length_cons]; omega
  · simp only [List.length_cons, rank]; omega

end

end ConditionReader

/-- The condition that all words of an antecedent form. -/
def conditionOfWords (v : Vocabulary) (ws : List String) : Except AntecedentFault Condition :=
  match ws with
  | [] => .error .empty
  | ws =>
    match ConditionReader.chain v .or ws with
    | .error fault => .error fault
    | .ok (e, ⟨[], _⟩) => .ok e
    | .ok (_, ⟨w :: _, _⟩) => .error (.unexpectedToken w)

/-- The condition of an antecedent. -/
def readCondition (v : Vocabulary) (antecedent : String) : Except RuleFault Condition :=
  (conditionOfWords v (ruleWords antecedent)).mapError fun fault => .antecedent antecedent fault

/-! ## §3 Consequents -/

/-- Cuts words at every `and`. -/
def clauses : List String → List (List String)
  | [] => [[]]
  | w :: rest =>
    if w = "and" then [] :: clauses rest
    else
      match clauses rest with
      | [] => [[w]]
      | clause :: others => (w :: clause) :: others

/-- The hedges and the term of a clause; the consequent is given for errors. -/
def readTarget (e : VocabularyEntry) (consequent : String) :
    List String → Except RuleFault (List Hedge × TermRef)
  | [] => .error (.clause [])
  | [w] =>
    match e.term? w with
    | some t => .ok ([], t)
    | none => .error (.unknownTerm w e.ref.name)
  | w :: rest =>
    match Hedge.ofName? w with
    | none | some .any => .error (.unexpectedWord w consequent)
    | some h => do
      let (hedges, t) ← readTarget e consequent rest
      return (h :: hedges, t)

/-- The proposition of a clause. -/
def readClause (v : Vocabulary) (consequent : String) (ws : List String) :
    Except RuleFault Proposition :=
  match ws with
  | name :: "is" :: w :: rest =>
    match v.findOutput? name with
    | none => .error (.unknownOutput name)
    | some e => do
      let (hedges, t) ← readTarget e consequent (w :: rest)
      return ⟨e.ref, hedges, some t⟩
  | ws => .error (.clause ws)

/-- The propositions of a consequent. -/
def readConclusions (v : Vocabulary) (consequent : String) : Except RuleFault (List Proposition) :=
  match ruleWords consequent with
  | [] => .error .emptyConsequent
  | ws => (clauses ws).mapM (readClause v consequent)

/-! ## §4 The parts of a rule -/

/-- The parts of a rule; the weight is missing unless it is given. -/
structure RuleText where
  antecedent : String
  consequent : String
  weight : Option Float
deriving Repr

namespace RuleText

/-- Words up to a weight: those before the last `with`, which must be followed by exactly one word. -/
def splitWeight (rule : String) (ws : List String) :
    Except RuleFault (List String × Option Float) :=
  if ws.contains "with" then
    match ws.reverse with
    | w :: "with" :: rest =>
      -- a second `with` stands where the weight should
      if w = "with" then .error (.weightCount rule)
      else
        match Scalar.read? w with
        | some x => .ok (rest.reverse, some x)
        | none => .error (.invalidWeight w rule)
    | _ => .error (.weightCount rule)
  else .ok (ws, none)

/-- Cuts a rule at the first `then` and at its weight. -/
def split (rule : String) : Except RuleFault RuleText :=
  match Text.words rule with
  | "if" :: ws =>
    match ws.dropWhile (· != "then") with
    | [] => .error (.missingThen rule)
    | _ :: after => do
      let (consequent, weight) ← splitWeight rule after
      return ⟨Text.unwords (ws.takeWhile (· != "then")), Text.unwords consequent, weight⟩
  | _ => .error (.missingIf rule)

end RuleText

end FuzzyInference
