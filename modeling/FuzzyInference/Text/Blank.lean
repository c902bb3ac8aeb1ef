/-!
# Blank characters, words and lines

Blank characters separate the words of a rule, surround a number and are skipped between the tokens of a
formula. The class is that of the Unicode white space, together with the four separators `U+001C` to
`U+001F`. Cutting works on lists of characters; the functions on `String` only wrap it.

## Main statements

* `Text.wordsOf_blank_free`: every word is non-empty and free of blanks
-/

namespace FuzzyInference.Text

/-- Code points of the blank characters. -/
def blankCodes : List Nat :=
  [0x09, 0x0A, 0x0B, 0x0C, 0x0D, 0x1C, 0x1D, 0x1E, 0x1F, 0x20, 0x85, 0xA0, 0x1680,
   0x2000, 0x2001, 0x2002, 0x2003, 0x2004, 0x2005, 0x2006, 0x2007, 0x2008, 0x2009, 0x200A,
   0x2028, 0x2029, 0x202F, 0x205F, 0x3000]

/-- A blank character separates words. -/
def isBlank (c : Char) : Bool := blankCodes.contains c.toNat

/-! ## §1 Trimming -/

/-- Drops the blanks at the start. -/
def trimStart (cs : List Char) : List Char := cs.dropWhile isBlank

/-- Drops the blanks at the end. -/
def trimEnd (cs : List Char) : List Char := (cs.reverse.dropWhile isBlank).reverse

/-- The text without the blanks at its ends. -/
def trim (s : String) : String := String.ofList (trimEnd (trimStart s.toList))

/-- The text without the blanks at its end. -/
def trimRight (s : String) : String := String.ofList (trimEnd s.toList)

/-! ## §2 Words -/

theorem length_dropWhile_le (p : Char → Bool) (cs : List Char) :
    (cs.dropWhile p).length ≤ cs.length :=
  (List.dropWhile_sublist p).length_le

/-- The maximal runs of characters that are not blank. -/
def wordsOf (cs : List Char) : List (List Char) :=
  match cs with
  | [] => []
  | c :: rest =>
    if isBlank c then wordsOf rest
    else (c :: rest.takeWhile (! isBlank ·)) :: wordsOf (rest.dropWhile (! isBlank ·))
termination_by cs.length
decreasing_by
  · simp
  · have := length_dropWhile_le (! isBlank ·) rest
    simp only [List.length_cons]
    omega

/-- The words of a text, in order. -/
def words (s : String) : List String := (wordsOf s.toList).map String.ofList

/-- Words written with one space between them. -/
def unwords (ws : List String) : String := String.intercalate " " ws

/-- Every word is non-empty and free of blanks. -/
theorem wordsOf_blank_free (cs : List Char) :
    ∀ w ∈ wordsOf cs, w ≠ [] ∧ ∀ c ∈ w, isBlank c = false := by
  fun_induction wordsOf cs with
  | case1 => simp
  | case2 c rest _ ih => exact ih
  | case3 c rest hc ih =>
    intro w hw
    rcases List.mem_cons.1 hw with rfl | hw
    · refine ⟨by simp, ?_⟩
      intro d hd
      rcases List.mem_cons.1 hd with rfl | hd
      · simpa using hc
      · have hall := List.all_eq_true.1 List.all_takeWhile d hd
        simpa using hall
    · exact ih w hw

/-! ## §3 Lines -/

/-- Code points that end a line: the line feeds, the separators of files, groups and records, and the two
separators of lines and paragraphs. -/
def lineEndCodes : List Nat := [0x0A, 0x0B, 0x0C, 0x0D, 0x1C, 0x1D, 0x1E, 0x85, 0x2028, 0x2029]

/-- The character ends a line of a text. -/
def isLineEnd (c : Char) : Bool := lineEndCodes.contains c.toNat

/-- The character ends a line of a file. -/
def isFileLineEnd (c : Char) : Bool := c = '\n' || c = '\r'

/-- Cuts at the ends of lines, which are dropped; a carriage return and a line feed are one end. The second
argument is what the current line already holds, last character first, and `none` between lines. -/
def linesOf (isEnd : Char → Bool) : Option (List Char) → List Char → List (List Char)
  | none, [] => []
  | some line, [] => [line.reverse]
  | line, '\r' :: '\n' :: rest => (line.getD []).reverse :: linesOf isEnd none rest
  | line, c :: rest =>
    if isEnd c then (line.getD []).reverse :: linesOf isEnd none rest
    else linesOf isEnd (some (c :: line.getD [])) rest

/-- The lines of a text. The end of the last line may be missing. -/
def lines (s : String) : List String := (linesOf isLineEnd none s.toList).map String.ofList

/-- The lines of a file, which end with line feeds, carriage returns or both. -/
def fileLines (s : String) : List String := (linesOf isFileLineEnd none s.toList).map String.ofList

end FuzzyInference.Text
