import FuzzyInference.Text.Printable

/-!
# Quoted texts

A text in quotes, as descriptions of terms and of lists show it. Single quotes are used unless the text
holds a single quote and no double quote; the quote in use and the backslash are escaped, and characters
that cannot be printed are shown by their code.
-/

namespace FuzzyInference.Text

/-- The quote that is used where possible. -/
def singleQuote : Char := Char.ofNat 0x27

/-- The quote that is used around a text with single quotes only. -/
def doubleQuote : Char := Char.ofNat 0x22

/-- The low hexadecimal digits of a number, at least `width` of them. -/
def hexadecimal (width n : Nat) : List Char :=
  let digits := Nat.toDigits 16 n
  List.replicate (width - digits.length) '0' ++ digits

/-- How a character is shown between quotes of the given kind. -/
def escape (quote c : Char) : List Char :=
  if c = quote || c = '\\' then ['\\', c]
  else if c = '\n' then ['\\', 'n']
  else if c = '\r' then ['\\', 'r']
  else if c = '\t' then ['\\', 't']
  else if c.toNat < 0x20 || c.toNat = 0x7F then '\\' :: 'x' :: hexadecimal 2 c.toNat
  else if c.toNat < 0x7F || isPrintable c then [c]
  else if c.toNat < 0x100 then '\\' :: 'x' :: hexadecimal 2 c.toNat
  else if c.toNat < 0x10000 then '\\' :: 'u' :: hexadecimal 4 c.toNat
  else '\\' :: 'U' :: hexadecimal 8 c.toNat

/-- The text in quotes. -/
def quoted (s : String) : String :=
  let quote := if s.toList.contains singleQuote && !s.toList.contains doubleQuote then doubleQuote
    else singleQuote
  String.ofList (quote :: s.toList.flatMap (escape quote) ++ [quote])

end FuzzyInference.Text
