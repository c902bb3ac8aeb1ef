import FuzzyInference.Text.Quoted

/-!
# Texts in TOML documents

A text stands in double quotes, where a backslash starts an escape, or in single quotes, where every
character stands for itself. Three quotes enclose a text of several lines, whose first line feed is
dropped when it follows the quotes at once; there a backslash at the end of a line joins the next line
without its blanks.

Control characters are refused everywhere in a document, except for tabs, and for line feeds where lines
may end.

## Main definitions

* `oneLine?`, `multiLine?`: the text after its opening quotes
* `decode?`: the characters that escapes stand for
-/

namespace FuzzyInference.Toml

open FuzzyInference.Text

/-! ## §1 Characters -/

/-- Refused inside a line. -/
def isControl (c : Char) : Bool := (c.toNat < 0x20 && c != '\t') || c.toNat = 0x7F

/-- Blanks inside a line. -/
def isSpace (c : Char) : Bool := c = ' ' || c = '\t'

/-- Blanks, ends of lines included. -/
def isSpaceOrLineFeed (c : Char) : Bool := isSpace c || c = '\n'

/-- What follows the blanks inside a line. -/
def skipSpaces (cs : List Char) : List Char := cs.dropWhile isSpace

/-- What follows an expected piece of text. -/
def after? : List Char → List Char → Option (List Char)
  | [], cs => some cs
  | e :: es, c :: cs => if e = c then after? es cs else none
  | _ :: _, [] => none

/-! ## §2 Escapes -/

/-- Characters and fewer characters than were given. -/
abbrev Decoded (cs : List Char) := List Char × { rest : List Char // rest.length ≤ cs.length }

/-- The value of a hexadecimal digit. -/
def hexDigit? (c : Char) : Option Nat :=
  if '0' ≤ c && c ≤ '9' then some (c.toNat - 0x30)
  else if 'a' ≤ c && c ≤ 'f' then some (c.toNat - 0x61 + 10)
  else if 'A' ≤ c && c ≤ 'F' then some (c.toNat - 0x41 + 10)
  else none

/-- The number that hexadecimal digits denote. -/
def hexValue? (cs : List Char) : Option Nat :=
  cs.foldlM (fun n c => (hexDigit? c).map fun d => 16 * n + d) 0

/-- The character whose code stands in so many hexadecimal digits. -/
def codePoint? (width : Nat) (cs : List Char) : Option (Decoded cs) :=
  if cs.length < width then none
  else
    match hexValue? (cs.take width) with
    | some n =>
      if n.isValidChar then some ([Char.ofNat n], ⟨cs.drop width, by simp⟩) else none
    | none => none

/-- The characters that an escape stands for, after its backslash. -/
def escape? (severalLines : Bool) (cs : List Char) : Option (Decoded cs) :=
  match cs with
  | [] => none
  | c :: rest =>
    let one (d : Char) : Option (Decoded (c :: rest)) := some ([d], ⟨rest, Nat.le_succ _⟩)
    if c = doubleQuote || c = '\\' then one c
    else if c = 'b' then one (Char.ofNat 0x08)
    else if c = 't' then one '\t'
    else if c = 'n' then one '\n'
    else if c = 'f' then one (Char.ofNat 0x0C)
    else if c = 'r' then one '\r'
    else if c = 'u' || c = 'U' then
      (codePoint? (if c = 'u' then 4 else 8) rest).map fun (d, ⟨after, h⟩) =>
        (d, ⟨after, Nat.le_succ_of_le h⟩)
    else if severalLines && ((c :: rest).dropWhile isSpace).head? = some '\n' then
      some ([], ⟨(c :: rest).dropWhile isSpaceOrLineFeed, (List.dropWhile_sublist _).length_le⟩)
    else none

/-- The characters of a text, escapes replaced by what they stand for. -/
def decode? (severalLines : Bool) (cs : List Char) : Option (List Char) :=
  match cs with
  | [] => some []
  | c :: rest =>
    if c = '\\' then
      match escape? severalLines rest with
      | none => none
      | some (d, ⟨after, _⟩) => (decode? severalLines after).map (d ++ ·)
    else (decode? severalLines rest).map (c :: ·)
termination_by cs.length
decreasing_by all_goals simp only [List.length_cons]; omega

/-! ## §3 Texts -/

/-- Cuts at the closing quote of a text of one line. A character after a backslash closes nothing where
backslashes escape. -/
def oneLineBody? (quote : Char) (escapes : Bool) : List Char → Option (List Char × List Char)
  | [] => none
  | c :: rest =>
    if c = quote then some ([], rest)
    else if isControl c then none
    else if escapes && c = '\\' then
      match rest with
      | [] => none
      | d :: rest => (oneLineBody? quote escapes rest).map fun (body, rest) => (c :: d :: body, rest)
    else (oneLineBody? quote escapes rest).map fun (body, rest) => (c :: body, rest)

/-- Cuts at the three closing quotes of a text of several lines. One or two more quotes before them belong
to the text. -/
def multiLineBody? (quote : Char) (escapes : Bool) : List Char → Option (List Char × List Char)
  | [] => none
  | c :: rest =>
    if c = quote && rest.take 2 = [quote, quote] then
      let more := (rest.drop 2).takeWhile (· = quote)
      let extra := more.take 2
      some (extra, rest.drop (2 + extra.length))
    else if isControl c && c != '\n' then none
    else if escapes && c = '\\' then
      match rest with
      | [] => none
      | d :: rest => (multiLineBody? quote escapes rest).map fun (body, rest) => (c :: d :: body, rest)
    else (multiLineBody? quote escapes rest).map fun (body, rest) => (c :: body, rest)

/-- A text of one line, after its opening quote. -/
def oneLine? (quote : Char) (cs : List Char) : Option (String × List Char) := do
  let escapes := quote = doubleQuote
  let (body, rest) ← oneLineBody? quote escapes cs
  let decoded ← if escapes then decode? false body else some body
  return (String.ofList decoded, rest)

/-- A text of several lines, after its three opening quotes. -/
def multiLine? (quote : Char) (cs : List Char) : Option (String × List Char) := do
  let escapes := quote = doubleQuote
  let cs := match cs with
    | '\n' :: rest => rest
    | cs => cs
  let (body, rest) ← multiLineBody? quote escapes cs
  let decoded ← if escapes then decode? true body else some body
  return (String.ofList decoded, rest)

/-- A text, if one starts here. -/
def text? (cs : List Char) : Option (String × List Char) :=
  match cs with
  | [] => none
  | quote :: rest =>
    if quote = singleQuote || quote = doubleQuote then
      match after? [quote, quote] rest with
      | some rest => multiLine? quote rest
      | none => oneLine? quote rest
    else none

end FuzzyInference.Toml
