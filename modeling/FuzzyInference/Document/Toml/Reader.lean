import FuzzyInference.Document.Toml.Moment
import FuzzyInference.Document.Toml.Tree

/-!
# Reading TOML documents

A document is a sequence of lines, each with at most one statement and a comment. Values may extend over
several lines inside brackets and in texts of several lines. The readers of this module answer with what
they read and the characters that follow it; the outermost one bounds the depth of its calls by the length
of the document, since every call uses up a character.

Each statement is carried out as soon as it is read, so that the first mistake in a document decides what
is wrong with it.

## Main definitions

* `key?`, `value`, `statements`
* `Toml.read`: the table that a document describes
-/

namespace FuzzyInference.Toml

/-! ## §1 Comments -/

/-- What follows blanks, ends of lines and comments; the first argument says whether a comment has begun. -/
def skipFiller? : Bool → List Char → Option (List Char)
  | _, [] => some []
  | true, c :: rest =>
    if c = '\n' then skipFiller? false rest
    else if isControl c then none
    else skipFiller? true rest
  | false, c :: rest =>
    if c = '#' then skipFiller? true rest
    else if isSpaceOrLineFeed c then skipFiller? false rest
    else some (c :: rest)

/-- What follows the end of a line, which may hold a comment. -/
def lineEnd? : Bool → List Char → Option (List Char)
  | _, [] => some []
  | true, c :: rest =>
    if c = '\n' then some rest
    else if isControl c then none
    else lineEnd? true rest
  | false, c :: rest =>
    if c = '#' then lineEnd? true rest
    else if c = '\n' then some rest
    else if isSpace c then lineEnd? false rest
    else none

/-! ## §2 Keys -/

/-- Characters of keys without quotes. -/
def isBareKey (c : Char) : Bool := c.isAlphanum || c = '-' || c = '_'

/-- One part of a key. -/
def keyPart? (cs : List Char) : Option (String × List Char) :=
  match cs with
  | [] => none
  | c :: rest =>
    if isBareKey c then some (String.ofList (cs.takeWhile isBareKey), cs.dropWhile isBareKey)
    else if c = Text.singleQuote || c = Text.doubleQuote then oneLine? c rest
    else none

/-- A key: parts with dots between them. -/
def key? : Nat → List Char → Option (List String × List Char)
  | 0, _ => none
  | fuel + 1, cs => do
    let (part, rest) ← keyPart? cs
    match skipSpaces rest with
    | '.' :: rest =>
      let (parts, rest) ← key? fuel (skipSpaces rest)
      return (part :: parts, rest)
    | rest => return ([part], rest)

/-! ## §3 Values -/

/-- A truth value. -/
def truthValue? (cs : List Char) : Option (Value × List Char) :=
  match after? ['t', 'r', 'u', 'e'] cs with
  | some rest => some (.bool true, rest)
  | none => (after? ['f', 'a', 'l', 's', 'e'] cs).map fun rest => (.bool false, rest)

/-- A value without parts. A moment starts like a number, everything else with characters of its own. -/
def simpleValue (cs : List Char) : Except Error (Value × List Char) :=
  match text? cs, moment? cs, truthValue? cs with
  | some (s, rest), _, _ => .ok (.text s, rest)
  | none, some (m, rest), _ => .ok (.moment m, rest)
  | none, none, some reading => .ok reading
  | none, none, none => number cs

mutual

/-- A value. -/
def value : Nat → List Char → Except Error (Value × List Char)
  | 0, _ => .error .malformedDocument
  | fuel + 1, cs =>
    match cs with
    | '[' :: rest => do
      let (vs, rest) ← items fuel (← expected (skipFiller? false rest))
      return (.list vs, rest)
    | '\x7b' :: rest =>
      match skipSpaces rest with
      | '\x7d' :: rest => .ok (.table [], rest)
      | rest => do
        let (p, rest) ← assignments fuel .start rest
        return (p.toValue, rest)
    | cs => simpleValue cs

/-- The items of a list up to its closing bracket. A comma may follow the last one. -/
def items : Nat → List Char → Except Error (List Value × List Char)
  | 0, _ => .error .malformedDocument
  | fuel + 1, cs =>
    match cs with
    | ']' :: rest => .ok ([], rest)
    | cs => do
      let (v, rest) ← value fuel cs
      match ← expected (skipFiller? false rest) with
      | ']' :: rest => return ([v], rest)
      | ',' :: rest =>
        let (vs, rest) ← items fuel (← expected (skipFiller? false rest))
        return (v :: vs, rest)
      | _ => .error .malformedDocument

/-- Carries out the assignments of a table in braces, up to its closing brace. -/
def assignments : Nat → Progress → List Char → Except Error (Progress × List Char)
  | 0, _, _ => .error .malformedDocument
  | fuel + 1, p, cs => do
    let (s, rest) ← assignment fuel cs
    let p ← expected (p.step? s)
    match skipSpaces rest with
    | '\x7d' :: rest => return (p, rest)
    | ',' :: rest => assignments fuel p (skipSpaces rest)
    | _ => .error .malformedDocument

/-- A key with its value. -/
def assignment : Nat → List Char → Except Error (Statement × List Char)
  | 0, _ => .error .malformedDocument
  | fuel + 1, cs => do
    let (path, rest) ← expected (key? fuel cs)
    let (v, rest) ← value fuel (skipSpaces (← expected (after? ['='] rest)))
    return (.assignment path v, rest)

end

/-! ## §4 Statements -/

/-- A header between opening and closing brackets. -/
def header? (fuel : Nat) (closing cs : List Char) : Option (List String × List Char) := do
  let (path, rest) ← key? fuel (skipSpaces cs)
  return (path, ← after? closing rest)

/-- The statement at the start of a line. -/
def statement (fuel : Nat) (cs : List Char) : Except Error (Statement × List Char) :=
  match cs with
  | '[' :: '[' :: rest => do
    let (path, rest) ← expected (header? fuel [']', ']'] rest)
    return (.element path, rest)
  | '[' :: rest => do
    let (path, rest) ← expected (header? fuel [']'] rest)
    return (.table path, rest)
  | cs => assignment fuel cs

/-- Carries out all statements of a document. -/
def statements : Nat → Progress → List Char → Except Error Progress
  | 0, _, _ => .error .malformedDocument
  | fuel + 1, p, cs => do
    match ← expected (skipFiller? false cs) with
    | [] => return p
    | cs =>
      -- a value takes at most three calls for one character
      let (s, rest) ← statement (4 * cs.length + 4) cs
      let p ← expected (p.step? s)
      statements fuel p (← expected (lineEnd? false rest))

/-- Carriage returns before line feeds are dropped. -/
def joinLineEnds : List Char → List Char
  | '\r' :: '\n' :: rest => '\n' :: joinLineEnds rest
  | c :: rest => c :: joinLineEnds rest
  | [] => []

/-- The table that a document describes. -/
def read (document : String) : Except Error Value := do
  let cs := joinLineEnds document.toList
  let p ← statements (cs.length + 1) .start cs
  return p.toValue

end FuzzyInference.Toml
