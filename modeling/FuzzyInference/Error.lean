import FuzzyInference.Fault
import FuzzyInference.Index

/-!
# Errors

What goes wrong in a fuzzy model, as causes with their data. There are three families:

* a `ConfigurationError` arises while a model is assembled: unknown names, unusable parameters, formulas
  that do not parse;
* a `RuleError` is the configuration error of one rule, whose text it keeps;
* an `EvaluationError` arises while a model is evaluated.

An `Error` is any of these, an arithmetic `Fault`, or a document that cannot be read. The wording of every
family is in one function `message`.
-/

namespace FuzzyInference

/-- A name or number in the angle brackets that all messages use. -/
def bracketed (s : String) : String := "<" ++ s ++ ">"

/-! ## §1 Formulas -/

/-- Why the tokens of a formula form no expression. -/
inductive FormulaFault
  | unexpectedToken (token : String)
  | unexpectedEnd
  | expected (token found : String)
  | missingLeftOperand (operator : String)
  | unknownFunction (name : String)
  | argumentCount (name : String) (arity given : Nat)
deriving DecidableEq, Repr

def FormulaFault.message : FormulaFault → String
  | unexpectedToken token => "unexpected token " ++ bracketed token
  | unexpectedEnd => "unexpected end of formula"
  | expected token found => "expected " ++ bracketed token ++ " but found " ++ bracketed found
  | missingLeftOperand operator => "operator " ++ bracketed operator ++ " is missing its left operand"
  | unknownFunction name => "unknown function " ++ bracketed name
  | argumentCount name arity given =>
    s!"function {bracketed name} takes {arity} argument(s), {given} given"

/-! ## §2 Configuration -/

/-- The collections of a model whose members are found by name or position. -/
inductive Collection
  | inputVariables | outputVariables | ruleBlocks
deriving DecidableEq, Repr

/-- The name of one member. -/
def Collection.member : Collection → String
  | inputVariables => "Input variable"
  | outputVariables => "Output variable"
  | ruleBlocks => "Rule block"

/-- The families of things that a configuration refers to by name. -/
inductive Family
  | tNorm | sNorm | hedge | term | defuzzifier | activation
deriving DecidableEq, Repr

def Family.title : Family → String
  | tNorm => "T-norm"
  | sNorm => "S-norm"
  | hedge => "hedge"
  | term => "term"
  | defuzzifier => "defuzzifier"
  | activation => "activation method"

/-- Why a model cannot be assembled as asked. -/
inductive ConfigurationError
  /-- The text or value denotes no scalar. -/
  | notScalar (text : String)
  /-- A truth value stands for a scalar. -/
  | booleanScalar (value : Bool)
  | parameterCount (kind name : String) (required : Nat) (withHeight : Bool) (given : Nat)
  /-- A discrete term without points. -/
  | noPoints (name : String)
  | formulaCharacter (character formula : String)
  | emptyFormula
  | formulaSyntax (formula : String) (fault : FormulaFault)
  | aggregatedParameters
  | cumulativeParameters
  | duplicateTerm (term owner : String)
  | unknownTerm (term owner : String)
  | termPosition (index : Index) (owner : String) (count : Nat)
  | unknownComparison (text : String)
  | activationParameters (method expected : String) (given : Nat)
  | unknownName (family : Family) (name : String) (choices : List String)
  | missingTermClass (name : String)
  | unknownWeightedType (name : String)
  | position (collection : Collection) (index : Index) (count : Nat)
  | notFound (collection : Collection) (name : String)
  | variableNotFound (name : String)
  | codedArity (codes : String) (given expected inputs outputs : Nat)
  | uncodedHedge (fraction owner : String)
  | codedAny (owner : String)
  | codedNothing (code owner : String)
  | unknownConnector (connector : Int)
  | codedWithoutTerm (codes : String)
  | rangeSize (owner : String)
  | termEntryMissing (owner entry : String)
  | rulesFailed (engine : String) (messages : List String)
  | rowSize (names : List String) (given : Nat)
deriving DecidableEq, Repr

def ConfigurationError.message : ConfigurationError → String
  | notScalar text => "Expected a scalar but found " ++ bracketed text
  | booleanScalar value => "Expected a scalar but found boolean " ++ bracketed (Text.truth value)
  | parameterCount kind name required withHeight given =>
    let height := if withHeight then " (plus optional height)" else ""
    s!"{kind} {bracketed name} requires {required} parameters{height}, but {given} were given"
  | noPoints name => s!"Discrete {bracketed name} requires at least one (x, y) pair"
  | formulaCharacter character formula =>
    s!"Unexpected character {bracketed character} in formula {bracketed formula}"
  | emptyFormula => "Cannot parse an empty formula"
  | formulaSyntax formula fault => s!"Syntax error in formula {bracketed formula}: {fault.message}"
  | aggregatedParameters => "Aggregated terms are assembled by the engine, not configured"
  | cumulativeParameters => "Cumulative terms are assembled with append()"
  | duplicateTerm term owner =>
    s!"Term {bracketed term} already exists in variable {bracketed owner}"
  | unknownTerm term owner => s!"Term {bracketed term} not found in variable {bracketed owner}"
  | termPosition index owner count =>
    s!"Term index {bracketed index.text} out of range for variable {bracketed owner} " ++
      s!"with {count} terms"
  | unknownComparison text => "Unknown comparison operator " ++ bracketed text
  | activationParameters method expected given =>
    s!"{method} requires 2 parameters ({expected}), but {given} were given"
  | unknownName family name choices =>
    s!"Unknown {family.title} {bracketed name}; expected one of: " ++ String.intercalate ", " choices
  | missingTermClass name => "Missing term class for term " ++ bracketed name
  | unknownWeightedType name => "Unknown weighted defuzzifier type " ++ bracketed name
  | position collection index count =>
    s!"{collection.member} index {bracketed index.text} out of range [0, {count})"
  | notFound collection name => s!"{collection.member} {bracketed name} not found"
  | variableNotFound name => s!"Variable {bracketed name} not found"
  | codedArity codes given expected inputs outputs =>
    s!"Coded rule {codes} has {given} values, expected {expected} " ++
      s!"({inputs} inputs, {outputs} outputs, weight, connector)"
  | uncodedHedge fraction owner =>
    s!"No hedge is coded by {bracketed fraction} for variable {bracketed owner}"
  | codedAny owner => s!"Hedge <any> is not allowed in the consequent for {bracketed owner}"
  | codedNothing code owner =>
    s!"Rule code {bracketed code} selects no term of variable {bracketed owner}"
  | unknownConnector connector =>
    s!"Unknown rule connector {bracketed (toString connector)}, expected 1 (and) or 2 (or)"
  | codedWithoutTerm codes => s!"Coded rule {codes} needs at least one input and one output term"
  | rangeSize owner => s!"Variable {bracketed owner} range must have 2 values"
  | termEntryMissing owner entry => s!"Term of variable {bracketed owner} is missing {entry}"
  | rulesFailed engine messages =>
    s!"Engine {bracketed engine}: {messages.length} rule(s) failed to load:\n" ++
      String.intercalate "\n" messages
  | rowSize names given =>
    let listed := String.intercalate ", " names
    s!"Expected {names.length} input values ({listed}), but {given} were given"

/-! ## §3 Rules -/

/-- Why the words of an antecedent form no condition. -/
inductive AntecedentFault
  | empty
  | unexpectedToken (token : String)
  | unexpectedEnd
  | unclosed
  | unknownVariable (name : String)
  | missingIs (owner : String)
  | unknownTerm (term owner : String)
deriving DecidableEq, Repr

def AntecedentFault.message : AntecedentFault → String
  | empty => "the antecedent is empty"
  | unexpectedToken token => "unexpected token " ++ bracketed token
  | unexpectedEnd => "unexpected end of antecedent"
  | unclosed => "missing closing parenthesis"
  | unknownVariable name => s!"variable {bracketed name} not found"
  | missingIs owner => s!"expected <is> after variable {bracketed owner}"
  | unknownTerm term owner => s!"term {bracketed term} not found in variable {bracketed owner}"

/-- Why a text is no rule of a model. -/
inductive RuleFault
  | missingIf (rule : String)
  | missingThen (rule : String)
  | weightCount (rule : String)
  | invalidWeight (weight rule : String)
  | antecedent (text : String) (fault : AntecedentFault)
  | emptyConsequent
  | clause (words : List String)
  | unknownOutput (name : String)
  | unexpectedWord (word consequent : String)
  | unknownTerm (term owner : String)
deriving DecidableEq, Repr

def RuleFault.message : RuleFault → String
  | missingIf rule => "Expected rule to start with <if>: " ++ bracketed rule
  | missingThen rule => "Expected keyword <then> in rule " ++ bracketed rule
  | weightCount rule => "Expected a single weight after <with> in " ++ bracketed rule
  | invalidWeight weight rule => s!"Invalid weight {bracketed weight} in {bracketed rule}"
  | antecedent text fault => s!"Cannot parse antecedent {bracketed text}: {fault.message}"
  | emptyConsequent => "The consequent is empty"
  | clause words =>
    "Expected <variable is [hedges] term> in consequent but found " ++
      bracketed (String.intercalate " " words)
  | unknownOutput name => s!"Output variable {bracketed name} not found"
  | unexpectedWord word consequent =>
    s!"Unexpected {bracketed word} in consequent {bracketed consequent}"
  | unknownTerm term owner => s!"Term {bracketed term} not found in variable {bracketed owner}"

/-- A text that is no rule of a model, and why. -/
structure RuleError where
  fault : RuleFault
  rule : String
deriving DecidableEq, Repr

/-! ## §4 Evaluation -/

/-- Why a model cannot be evaluated. -/
inductive EvaluationError
  | notMonotonic (kind term : String)
  /-- A discrete term without points. -/
  | noPoints (term : String)
  /-- A linear term outside an engine. -/
  | unattached (term : String)
  | unknownVariable (name : String)
  | formulaNotLoaded (term : String)
  | missingConjunction (expression : String)
  | missingDisjunction (expression : String)
  | antecedentNotLoaded (antecedent : String)
  | ruleNotLoaded (rule : String)
  | missingDefuzzifier (owner : String)
  | notAggregated (defuzzifier kind name : String)
deriving DecidableEq, Repr

def EvaluationError.message : EvaluationError → String
  | notMonotonic kind term =>
    s!"Tsukamoto inversion requires a monotonic term, but {kind} {bracketed term} is not monotonic"
  | noPoints term => s!"Discrete {bracketed term} has no points"
  | unattached term => s!"Linear {bracketed term} is not attached to an engine"
  | unknownVariable name => s!"Unknown variable {bracketed name} in function"
  | formulaNotLoaded term => s!"Function {bracketed term} has no formula loaded"
  | missingConjunction expression =>
    "A conjunction operator is required to evaluate " ++ bracketed expression
  | missingDisjunction expression =>
    "A disjunction operator is required to evaluate " ++ bracketed expression
  | antecedentNotLoaded antecedent => s!"Antecedent {bracketed antecedent} is not loaded"
  | ruleNotLoaded rule => s!"Rule {bracketed rule} is not loaded"
  | missingDefuzzifier owner => s!"Output variable {bracketed owner} has no defuzzifier"
  | notAggregated defuzzifier kind name =>
    s!"{defuzzifier} expects an Aggregated term, but found {kind} {bracketed name}"

/-! ## §5 All errors -/

/-- Whatever stops an operation of the library. -/
inductive Error
  | configuration (e : ConfigurationError)
  | rule (e : RuleError)
  | evaluation (e : EvaluationError)
  /-- An elementary step without a result. -/
  | fault (f : Fault)
  /-- A document that does not follow its format. -/
  | malformedDocument
deriving DecidableEq, Repr

namespace Error

/-- The text of an error of the model; faults and malformed documents have none. -/
def message? : Error → Option String
  | configuration e => some e.message
  | rule e => some e.fault.message
  | evaluation e => some e.message
  | fault _ | malformedDocument => none

/-- The error tells something about the model, as opposed to the arithmetic or the document. -/
def isFuzzy (e : Error) : Bool := e.message?.isSome

end Error

/-- A fault inside a longer computation stops it. -/
instance : MonadLift (Except Fault) (Except Error) where
  monadLift x := x.mapError .fault

end FuzzyInference
