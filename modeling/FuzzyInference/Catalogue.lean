import FuzzyInference.Error

/-!
# Catalogues of names

Configurations and rules refer to operators, hedges, terms and methods by name. A catalogue lists the
members of a family with their names; a name outside it is answered with all names that would do, in
alphabetical order.
-/

namespace FuzzyInference

/-- Puts a text before the first one that is not smaller. -/
def insertSorted (s : String) : List String → List String
  | [] => [s]
  | t :: rest => if s ≤ t then s :: t :: rest else t :: insertSorted s rest

/-- Texts in the order of their code points. -/
def sortTexts (texts : List String) : List String := texts.foldr insertSorted []

/-- A family of things that are found by name. -/
structure Catalogue (ι : Type) where
  family : Family
  /-- The names and what they stand for. Of two entries with one name the first counts. -/
  entries : List (String × ι)

namespace Catalogue

variable {ι : Type}

/-- The member of that name, if any. -/
def find? (c : Catalogue ι) (name : String) : Option ι := c.entries.lookup name

/-- Refuses a name that is none of the catalogue. -/
def refuse (c : Catalogue ι) (name : String) : Except Error ι :=
  .error (.configuration (.unknownName c.family name (sortTexts (c.entries.map Prod.fst))))

/-- The member of that name. -/
def get (c : Catalogue ι) (name : String) : Except Error ι :=
  match c.find? name with
  | some i => .ok i
  | none => c.refuse name

/-- The member of that name; the empty name stands for none. -/
def optional (c : Catalogue ι) (name : String) : Except Error (Option ι) :=
  if name.isEmpty then .ok none else some <$> c.get name

end Catalogue

end FuzzyInference
