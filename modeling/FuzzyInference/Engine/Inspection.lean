import FuzzyInference.Engine.Basic

/-!
# Inspecting engines

Before it is evaluated an engine can be asked whether it is complete, and what type of model it is.

## Main definitions

* `Engine.problems`: what is missing
* `Engine.inferType`: the type of the model
-/

namespace FuzzyInference

/-- The types of fuzzy models. -/
inductive EngineType
  | unknown | mamdani | larsen | takagiSugeno | tsukamoto | inverseTsukamoto | hybrid
deriving DecidableEq, Repr

def EngineType.name : EngineType → String
  | unknown => "Unknown"
  | mamdani => "Mamdani"
  | larsen => "Larsen"
  | takagiSugeno => "TakagiSugeno"
  | tsukamoto => "Tsukamoto"
  | inverseTsukamoto => "InverseTsukamoto"
  | hybrid => "Hybrid"

/-- Something that an engine lacks. -/
inductive Problem
  | noInputs (engine : Name)
  | noOutputs (engine : Name)
  | noBlocks (engine : Name)
  | noTerms (name : Name)
  | noDefuzzifier (name : Name)
  | noAggregation (name : Name)
  | noRules (block : Name)
  | notLoaded (rule : String)
  | noConjunction (block : Name) (rule : String)
  | noDisjunction (block : Name) (rule : String)
  | noImplication (block : Name)
deriving Repr

namespace Problem

/-- The name that the problem is about. -/
def owner? : Problem → Option Name
  | noInputs name | noOutputs name | noBlocks name | noTerms name | noDefuzzifier name
  | noAggregation name | noRules name | noConjunction name _ | noDisjunction name _
  | noImplication name => some name
  | notLoaded _ => none

/-- The name that the problem is about is short enough to be written. -/
def isWritable (p : Problem) : Bool := (p.owner?.map Name.isWritable).getD true

/-- The problem in a message. -/
def message : Problem → String
  | noInputs engine => s!"Engine {bracketed engine.asText} has no input variables"
  | noOutputs engine => s!"Engine {bracketed engine.asText} has no output variables"
  | noBlocks engine => s!"Engine {bracketed engine.asText} has no rule blocks"
  | noTerms name => s!"Variable {bracketed name.asText} has no terms"
  | noDefuzzifier name => s!"Output variable {bracketed name.asText} has no defuzzifier"
  | noAggregation name => s!"Output variable {bracketed name.asText} has no aggregation operator"
  | noRules block => s!"Rule block {bracketed block.asText} has no rules"
  | notLoaded rule => s!"Rule {bracketed rule} is not loaded"
  | noConjunction block rule =>
    s!"Rule block {bracketed block.asText} needs a conjunction operator for {bracketed rule}"
  | noDisjunction block rule =>
    s!"Rule block {bracketed block.asText} needs a disjunction operator for {bracketed rule}"
  | noImplication block => s!"Rule block {bracketed block.asText} has no implication operator"

end Problem

namespace Engine

variable {α : Type}

/-- A problem, if there is one. -/
def given (b : Bool) (p : Problem) : List Problem := if b then [p] else []

/-- The defuzzifier of an output samples. -/
def isIntegral (v : OutputVariable α) : Bool := (v.defuzzifier.map Defuzzifier.isIntegral).getD false

/-- The defuzzifier of an output weights. -/
def isWeighted (v : OutputVariable α) : Bool :=
  (v.defuzzifier.map fun d => !d.isIntegral).getD false

variable [Scalar α]

/-- What an output lacks. -/
def outputProblems (v : OutputVariable α) : List Problem :=
  given v.defuzzifier.isNone (.noDefuzzifier v.name) ++
  given (isIntegral v && v.fuzzyOutput.aggregation.isNone) (.noAggregation v.name)

/-- What a rule lacks in a block. -/
def ruleProblems (b : RuleBlock α) (r : Rule α) : List Problem :=
  match r.isLoaded, r.antecedent with
  | true, some c =>
    given (b.conjunction.isNone && c.uses .and) (.noConjunction b.name r.text) ++
    given (b.disjunction.isNone && c.uses .or) (.noDisjunction b.name r.text)
  | _, _ => [.notLoaded r.text]

/-- What a block lacks; an implication only where some output is sampled. -/
def blockProblems (sampled : Bool) (b : RuleBlock α) : List Problem :=
  given b.rules.isEmpty (.noRules b.name) ++
  b.rules.flatMap (ruleProblems b) ++
  given (sampled && b.implication.isNone) (.noImplication b.name)

/-- What the engine lacks. -/
def problems (e : Engine α) : List Problem :=
  given e.inputs.isEmpty (.noInputs e.name) ++
  given e.outputs.isEmpty (.noOutputs e.name) ++
  given e.blocks.isEmpty (.noBlocks e.name) ++
  e.inputs.flatMap (fun v => given v.terms.isEmpty (.noTerms v.name)) ++
  e.outputs.flatMap (fun v => given v.terms.isEmpty (.noTerms v.name)) ++
  e.outputs.flatMap outputProblems ++
  e.blocks.flatMap (blockProblems (e.outputs.any isIntegral))

/-- The engine lacks nothing. -/
def isReady (e : Engine α) : Bool := e.problems.isEmpty

/-- What the engine lacks, one line for each problem, unless a name in it is too long to be written. -/
def status (e : Engine α) : Except Fault String :=
  Decimal.writtenWhen (e.problems.all Problem.isWritable)
    (String.intercalate "\n" (e.problems.map Problem.message))

/-- The type of model, from the defuzzifiers and the terms of the outputs. -/
def inferType (e : Engine α) : EngineType :=
  let terms := e.outputs.flatMap fun v => v.terms
  if e.outputs.isEmpty then .unknown
  else if e.outputs.all isIntegral then
    if !e.blocks.isEmpty && e.blocks.all (fun b => b.implication == some .algebraicProduct) then .larsen
    else .mamdani
  else if e.outputs.all isWeighted then
    if terms.all Term.isCrisp then .takagiSugeno
    else if terms.all Term.isMonotonic then .tsukamoto
    else .inverseTsukamoto
  else .hybrid

end Engine

end FuzzyInference
