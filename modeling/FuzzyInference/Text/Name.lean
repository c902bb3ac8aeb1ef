/-!
# Names

Names of variables and terms stand between blanks in rules and inside formulas, so that only letters,
digits, underscores and points are kept of a text that becomes one.
-/

namespace FuzzyInference.Text

/-- The character may appear in a name. -/
def isNameCharacter (c : Char) : Bool := c.isAlphanum || c = '_' || c = '.'

/-- The name of a text without any character that may appear in one. -/
def placeholderName : String := "unnamed"

/-- The text without the characters that may not appear in a name. -/
def validName (s : String) : String :=
  match s.toList.filter isNameCharacter with
  | [] => placeholderName
  | cs => String.ofList cs

/-- A name is left as it is. -/
theorem validName_of_all {s : String} (hne : s.toList ≠ []) (h : s.toList.all isNameCharacter = true) :
    validName s = s := by
  have hfilter : s.toList.filter isNameCharacter = s.toList :=
    List.filter_eq_self.2 fun c hc => List.all_eq_true.1 h c hc
  unfold validName
  rw [hfilter]
  split
  · rename_i heq
    exact absurd heq hne
  · exact String.ofList_toList

end FuzzyInference.Text
