/-!
# Truth values

The words for truth and falsehood in everything that is written.
-/

namespace FuzzyInference.Text

/-- The word for a truth value. -/
def truth (b : Bool) : String := if b then "True" else "False"

end FuzzyInference.Text
