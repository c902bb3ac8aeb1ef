import FuzzyInference.Document.Value

/-!
# Trees of TOML documents

The statements of a document build a tree. A header declares a table, or appends a table to a list of
tables; the assignments that follow belong to it. A key with dots passes through tables, which come into
being on the way.

No table is declared twice, and values, once assigned, are never changed. A table that only came into
being on the way to another may still be declared; one that a dotted key passed through may be passed
again in the same section, but not declared and not passed later.

## Main definitions

* `Statement`, `Node`
* `Progress.start`, `Progress.step?`: what statements build, one by one
* `Progress.toValue`: the table that has been built
-/

namespace FuzzyInference.Toml

/-- A statement of a document. Paths are never empty. -/
inductive Statement
  /-- The header of a table. -/
  | table (path : List String)
  /-- The header of a table that is appended to a list of tables. -/
  | element (path : List String)
  | assignment (path : List String) (value : Value)

/-- How a table came into being. -/
inductive Origin
  /-- On the way to another table. -/
  | implied
  /-- On the way of a dotted key, in the section with that number. -/
  | dotted (part : Nat)
  /-- By a header of its own. -/
  | declared
deriving DecidableEq, Repr

/-- A node of the tree. -/
inductive Node
  | value (v : Value)
  | table (origin : Origin) (entries : List (String × Node))
  /-- A list of tables, of which only the last is still open. -/
  | tables (closed : List Value) (last : List (String × Node))

/-- The entries of a table, in the order in which they came into being. -/
abbrev Entries := List (String × Node)

/-! ## §1 Values of trees -/

mutual

def Node.toValue : Node → Value
  | .value v => v
  | .table _ entries => .table (entryValues entries)
  | .tables closed last => .list (closed ++ [.table (entryValues last)])

def entryValues : List (String × Node) → List (String × Value)
  | [] => []
  | (key, n) :: rest => (key, n.toValue) :: entryValues rest

end

/-! ## §2 Paths -/

/-- Puts a node in the place of the one with its key, or at the end. -/
def put (key : String) (n : Node) : Entries → Entries
  | [] => [(key, n)]
  | (k, m) :: rest => if k = key then (key, n) :: rest else (k, m) :: put key n rest

/-- What is behind a key on a path: the entries of a table, and the node that they form when they are
changed. -/
abbrev Passage := Option Node → Option (Entries × (Entries → Node))

/-- Headers pass through tables and into the last table of a list. -/
def headerPassage : Passage
  | none => some ([], .table .implied)
  | some (.table origin entries) => some (entries, .table origin)
  | some (.tables closed last) => some (last, .tables closed)
  | some (.value _) => none

/-- Dotted keys pass through tables that have no header, and mark them. -/
def dottedPassage (part : Nat) : Passage
  | none => some ([], .table (.dotted part))
  | some (.table .implied entries) => some (entries, .table (.dotted part))
  | some (.table (.dotted other) entries) =>
    if other = part then some (entries, .table (.dotted part)) else none
  -- a table with a header of its own, a list of tables, or a value
  | _ => none

/-- Changes the entries at the end of a path. -/
def within (passage : Passage) (change : Entries → Option Entries) : List String → Entries → Option Entries
  | [], entries => change entries
  | key :: rest, entries => do
    let (inner, rebuild) ← passage (entries.lookup key)
    let inner ← within passage change rest inner
    return put key (rebuild inner) entries

/-- Changes the node at the end of a path, which may be missing before. -/
def atEnd (passage : Passage) (change : Option Node → Option Node) (path : List String)
    (entries : Entries) : Option Entries :=
  let key := path.getLastD ""
  within passage (fun es => (change (es.lookup key)).map fun n => put key n es) path.dropLast entries

/-! ## §3 Statements -/

/-- A table that a header declares. -/
def declare : Option Node → Option Node
  | none => some (.table .declared [])
  | some (.table .implied entries) => some (.table .declared entries)
  -- declared before, made by a dotted key, or not a table
  | _ => none

/-- A list of tables to which a header appends. -/
def append : Option Node → Option Node
  | none => some (.tables [] [])
  | some (.tables closed last) => some (.tables (closed ++ [.table (entryValues last)]) [])
  | _ => none

/-- Assigns a value to a key that has none. -/
def assign (v : Value) : Option Node → Option Node
  | none => some (.value v)
  | some _ => none

/-- What the statements so far have built: the tree, the path of the last header and the number of
headers. -/
structure Progress where
  entries : Entries
  header : List String
  part : Nat

namespace Progress

/-- Nothing has been built. -/
def start : Progress := ⟨[], [], 0⟩

/-- The table that has been built. -/
def toValue (p : Progress) : Value := .table (entryValues p.entries)

/-- Carries out a statement. -/
def step? (p : Progress) : Statement → Option Progress
  | .table path =>
    (atEnd headerPassage declare path p.entries).map fun es => ⟨es, path, p.part + 1⟩
  | .element path =>
    (atEnd headerPassage append path p.entries).map fun es => ⟨es, path, p.part + 1⟩
  | .assignment path v =>
    (within headerPassage (atEnd (dottedPassage p.part) (assign v) path) p.header p.entries).map
      fun es => { p with entries := es }

end Progress

end FuzzyInference.Toml
