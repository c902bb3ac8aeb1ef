import FuzzyInference.Document.Value

/-!
# Names

Variables, terms, rule blocks and fuzzy sets have names, which a configuration gives. A name should be a
text. Any other value is taken as well and shown in the place of one, but rules and formulas are texts and
cannot speak of what it names.

## Main definitions

* `Name`: what something is called
* `Name.same`: the names that count as one
-/

namespace FuzzyInference

/-- What something is called. -/
inductive Name
  | text (s : String)
  /-- A value that is no text. -/
  | other (v : Value)
deriving Inhabited, Repr

namespace Name

instance : Coe String Name := ⟨text⟩

/-- The name that a value gives. -/
def ofValue : Value → Name
  | .text s => text s
  | v => other v

/-- The value that gave the name. -/
def toValue : Name → Value
  | text s => .text s
  | other v => v

/-- The name in a message. -/
def asText (n : Name) : String := n.toValue.asText

/-- The name as it is shown inside a call. -/
def shown (n : Name) : String := n.toValue.shown

/-- The name is short enough to be written. -/
def isWritable (n : Name) : Bool := n.toValue.isWritable

/-- The name in a text, unless it is too long. -/
def written (n : Name) : Except Fault String := n.toValue.written

/-- The name is a text, so that rules and formulas can speak of it. -/
def isText : Name → Bool
  | text _ => true
  | other _ => false

/-- Two names count as one. -/
def same : Name → Name → Bool
  | text s, text t => s == t
  | other v, other w => v.same w
  | _, _ => false

instance : BEq Name := ⟨same⟩

@[simp] theorem asText_text (s : String) : (text s).asText = s := rfl

@[simp] theorem isText_text (s : String) : (text s).isText = true := rfl

@[simp] theorem text_beq_text (s t : String) : (text s == text t) = (s == t) := rfl

@[simp] theorem other_beq_text (v : Value) (s : String) : (other v == text s) = false := rfl

end Name

end FuzzyInference
