/-!
# Machine words

Positions in lists and numbers of samples are counted in words of 64 bits with a sign.

## Main definitions

* `Word.holds`: a word can hold the whole number
-/

namespace FuzzyInference.Word

/-- The numbers that a word can hold are below this one and not below its opposite. -/
def limit : Int := 9223372036854775808

/-- A word can hold the whole number. -/
def holds (n : Int) : Bool := -limit ≤ n && n < limit

end FuzzyInference.Word
