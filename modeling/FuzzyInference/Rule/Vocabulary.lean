import FuzzyInference.Rule.Expression

/-!
# Vocabularies

What a rule can speak of: the variables of an engine with their terms, by name. Reading a rule needs no
more than that.
-/

namespace FuzzyInference

/-- A variable and its terms. -/
structure VocabularyEntry where
  ref : VariableRef
  terms : List TermRef
deriving DecidableEq, Repr

namespace VocabularyEntry

/-- The term of that name. -/
def term? (e : VocabularyEntry) (name : String) : Option TermRef := e.terms.find? fun t => t.name == name

end VocabularyEntry

/-- The variables that rules can speak of. -/
structure Vocabulary where
  inputs : List VocabularyEntry
  outputs : List VocabularyEntry
deriving Repr

namespace Vocabulary

/-- The first variable of that name, inputs before outputs. -/
def find? (v : Vocabulary) (name : String) : Option VocabularyEntry :=
  (v.inputs ++ v.outputs).find? fun e => e.ref.name == name

/-- The first output variable of that name. -/
def findOutput? (v : Vocabulary) (name : String) : Option VocabularyEntry :=
  v.outputs.find? fun e => e.ref.name == name

end Vocabulary

end FuzzyInference
