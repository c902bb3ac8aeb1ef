import FuzzyInference.Proofs.Decimal.Shortest
import FuzzyInference.Proofs.Formula.Longest
import FuzzyInference.Proofs.Grammar
import FuzzyInference.Proofs.Value

/-!
# The text of a formula

The tree of a formula is written with parentheses around every operator and with numbers that read back. The
tokens of the text are those of the parts of the tree, and the grammar derives the tree from them: nothing binds
tighter than parentheses, a number or a name. So the text of the tree of a formula has this tree.

A tree can be written so if its names are words that are no operators, and if its numbers are finite and not
negative. A formula has no other names, and no negative numbers: a sign before a number is an operator.

The plan of this module:

* the tokens of a tree;
* the tokens of the text of a tree;
* the derivation of a tree from its tokens;
* the trees of formulas.

## Main statements

* `Expr.Printable.tokenize_text`, `Expr.Printable.derives`: the text of a tree, and the tree of its tokens
* `printable_of_derives`: the trees of formulas
* `parse_text`: the text of the tree of a formula has this tree
-/

namespace FuzzyInference.Formula

open Text Decimal Token

/-! ## §1 Tokens of trees -/

def UnaryOperator.token : UnaryOperator → Token
  | minus => .symbol .minus
  | tilde => .symbol .tilde
  | plus => .symbol .plus
  | bang => .symbol .bang
  | not => .word "not"

def BinaryOperator.token : BinaryOperator → Token
  | power => .symbol .caret
  | times => .symbol .star
  | dividedBy => .symbol .slash
  | modulo => .symbol .percent
  | plus => .symbol .plus
  | minus => .symbol .minus
  | less => .symbol .less
  | lessEq => .symbol .lessEq
  | greater => .symbol .greater
  | greaterEq => .symbol .greaterEq
  | equal => .symbol .equal
  | notEqual => .symbol .notEqual
  | and => .word "and"
  | or => .word "or"

namespace Expr

/-- The tokens of the text of an expression. -/
def tokens : Expr Float → List Token
  | literal value => [.number (shortestText value)]
  | reference name => [.word name]
  | unary operator operand => .symbol .opening :: operator.token :: (operand.tokens ++ [.symbol .closing])
  | binary operator left right =>
    .symbol .opening :: (left.tokens ++ operator.token :: (right.tokens ++ [.symbol .closing]))
  | apply f argument => .word f.name :: .symbol .opening :: (argument.tokens ++ [.symbol .closing])
  | apply₂ f first second =>
    .word f.name :: .symbol .opening ::
      (first.tokens ++ .symbol .comma :: (second.tokens ++ [.symbol .closing]))

/-- The numbers in an expression, from left to right. -/
def literals : Expr Float → List Float
  | literal value => [value]
  | reference _ => []
  | unary _ operand => operand.literals
  | binary _ left right => left.literals ++ right.literals
  | apply _ argument => argument.literals
  | apply₂ _ first second => first.literals ++ second.literals

/-- Names are words that are no operators, and numbers are finite and have no sign. -/
inductive Printable : Expr Float → Prop
  | literal {value : Float} {m : Nat} {e : Int} (h : Binary.ofFloat value = .finite false m e) :
      Printable (.literal value)
  | reference {name : String} (hname : IsName name.toList) (hoperator : name ∉ wordOperators) :
      Printable (.reference name)
  | unary (operator : UnaryOperator) {operand : Expr Float} (h : operand.Printable) :
      Printable (.unary operator operand)
  | binary (operator : BinaryOperator) {left right : Expr Float} (hleft : left.Printable)
      (hright : right.Printable) : Printable (.binary operator left right)
  | apply (f : UnaryFunction) {argument : Expr Float} (h : argument.Printable) : Printable (.apply f argument)
  | apply₂ (f : BinaryFunction) {first second : Expr Float} (hfirst : first.Printable)
      (hsecond : second.Printable) : Printable (.apply₂ f first second)

end Expr

/-! ## §2 Tokens of texts -/

/-- The tokens that operators may be: signs and three words. -/
def MayOperate : Token → Prop
  | .number _ => False
  | .word name => name ∈ wordOperators
  | .symbol _ => True

theorem UnaryOperator.token_spec (op : UnaryOperator) : MayOperate op.token ∧ op.token.text = op.text := by
  cases op <;> exact ⟨by simp [MayOperate, token, wordOperators], rfl⟩

theorem BinaryOperator.token_spec (op : BinaryOperator) : MayOperate op.token ∧ op.token.text = op.text := by
  cases op <;> exact ⟨by simp [MayOperate, token, wordOperators], rfl⟩

theorem Function.mem_all (f : Function) : f ∈ all := by
  cases f with
  | unary f =>
    cases f with
    | elementary f => cases f <;> decide
    | abs | fabs | ceil | floor | round => decide
  | binary f => cases f <;> decide

/-- The names of functions are words, and no two functions have the same. -/
theorem Function.name_spec (f : Function) : IsName f.name.toList ∧ ofName? f.name = some f := by
  have hall : ∀ f ∈ all, IsName f.name.toList ∧ ofName? f.name = some f := by decide
  exact hall f f.mem_all

section Texts

variable {rest : List Char} {ts : List Token}

/-- An operator is scanned before a space. -/
theorem scanAll_operator {t : Token} (ht : MayOperate t) (h : scanAll rest = .ok ts) :
    scanAll (t.text.toList ++ ' ' :: rest) = .ok (t :: ts) := by
  have hspace : scanAll (' ' :: rest) = .ok ts := by rwa [scanAll_space]
  cases t with
  | number digits => exact ht.elim
  | word name =>
    have hall : ∀ name ∈ wordOperators, IsName name.toList := by decide
    have hscan := scanAll_word (hall name ht) (ends_cons (by decide) rest) hspace
    rwa [String.ofList_toList] at hscan
  | symbol s =>
    rw [text, String.toList_ofList]
    exact scanAll_symbol (.inr (by simp)) hspace

namespace Expr

/-- The text of an expression is cut into the tokens of the expression. -/
theorem Printable.scanAll_text {e : Expr Float} (h : e.Printable) {rest : List Char} {ts : List Token}
    (hrest : Ends rest) (hts : scanAll rest = .ok ts) :
    scanAll (e.text.toList ++ rest) = .ok (e.tokens ++ ts) := by
  -- the tokens are put together from the right, as each part ends where the next one starts
  induction h generalizing rest ts with
  | literal hvalue =>
    obtain ⟨n, hn, -⟩ := exists_numeral_shortestText hvalue
    rw [text, tokens, hn, String.toList_ofList]
    exact scanAll_chars n hrest hts
  | reference hname _ =>
    have hscan := scanAll_word hname hrest hts
    rwa [String.ofList_toList] at hscan
  | unary op _ ih =>
    obtain ⟨hoperate, htext⟩ := op.token_spec
    have hoperand := ih (ends_cons (by decide) rest) (scanAll_closing hts)
    have hall := scanAll_opening (scanAll_operator hoperate hoperand)
    simpa [text, tokens, htext] using hall
  | binary op _ _ ihleft ihright =>
    obtain ⟨hoperate, htext⟩ := op.token_spec
    have hright := ihright (ends_cons (by decide) rest) (scanAll_closing hts)
    have hoperator := scanAll_operator hoperate hright
    rw [← scanAll_space] at hoperator
    have hall := scanAll_opening (ihleft (ends_cons (by decide) _) hoperator)
    simpa [text, tokens, htext] using hall
  | apply f _ ih =>
    have hargument := scanAll_opening (ih (ends_cons (by decide) rest) (scanAll_closing hts))
    have hall := scanAll_word (Function.name_spec (.unary f)).1 (ends_cons (by decide) _) hargument
    simpa [text, tokens, Function.name] using hall
  | apply₂ f _ _ ihfirst ihsecond =>
    have hsecond := ihsecond (ends_cons (by decide) rest) (scanAll_closing hts)
    rw [← scanAll_space] at hsecond
    have hfirst := scanAll_opening (ihfirst (ends_cons (by decide) _) (scanAll_comma hsecond))
    have hall := scanAll_word (Function.name_spec (.binary f)).1 (ends_cons (by decide) _) hfirst
    simpa [text, tokens, Function.name] using hall

/-- No blank is at the end of the text of an expression. -/
theorem Printable.trimRight_text {e : Expr Float} (h : e.Printable) : trimRight e.text = e.text := by
  refine trimRight_eq ?_
  -- in parentheses, the last character is one of these
  have hclosing : ∀ s : String, ∀ c ∈ (s ++ ")").toList.getLast?, isBlank c = false := by
    intro s c hc
    rw [String.toList_append] at hc
    obtain rfl : ')' = c := by simpa using hc
    decide
  cases h with
  | literal hvalue =>
    obtain ⟨n, hn, -⟩ := exists_numeral_shortestText hvalue
    rw [text, hn]
    exact fun c hc => (n.isNumberText false).isWord.blankFree c (List.mem_of_mem_getLast? hc)
  | reference hname _ => exact fun c hc => hname.isWord.blankFree c (List.mem_of_mem_getLast? hc)
  | unary _ _ => exact hclosing _
  | binary _ _ _ => exact hclosing _
  | apply _ _ => exact hclosing _
  | apply₂ _ _ _ => exact hclosing _

theorem Printable.tokenize_text {e : Expr Float} (h : e.Printable) : tokenize e.text = .ok e.tokens := by
  have hscan : scanAll (e.text.toList ++ []) = .ok (e.tokens ++ []) := h.scanAll_text nofun scanAll_nil
  rw [List.append_nil, List.append_nil] at hscan
  simp only [tokenize, h.trimRight_text, hscan]

end Expr

end Texts

/-! ## §3 Derivations -/

section Derivations

variable {n : Phrase} {ts us : List Token} {e a b : Expr Float}

/-- Looser phrases contain tighter ones. -/
theorem derives_or (h : Derives n ts e) : Derives .or ts e := by
  have hpower {us : List Token} {a : Expr Float} (ha : Derives .power us a) : Derives .or us a :=
    .operand rfl (.operand rfl (.operand rfl (.operand rfl (.operand rfl ha))))
  cases n with
  | or => exact h
  | and => exact .operand rfl h
  | relation => exact .operand rfl (.operand rfl h)
  | sum => exact .operand rfl (.operand rfl (.operand rfl h))
  | product => exact .operand rfl (.operand rfl (.operand rfl (.operand rfl h)))
  | power => exact hpower h
  | unary => exact hpower (.base h)
  | primary => exact hpower (.base (.plain h))

/-- The tightest phrases are phrases of every kind. -/
theorem derives_of_primary (h : Derives .primary ts e) : Derives n ts e := by
  have hpower : Derives .power ts e := .base (.plain h)
  have hsum : Derives .sum ts e := .operand rfl (.operand rfl hpower)
  cases n with
  | or => exact derives_or h
  | and => exact .operand rfl (.operand rfl hsum)
  | relation => exact .operand rfl hsum
  | sum => exact hsum
  | product => exact .operand rfl hpower
  | power => exact hpower
  | unary => exact .plain h
  | primary => exact h

/-- Every operator but that of powers joins the operands of a chain. -/
theorem BinaryOperator.chain_cases (op : BinaryOperator) :
    op = .power ∨ ∃ n m, Phrase.operand? n = some m ∧ (op.token, op) ∈ n.operators := by
  cases op with
  | power => exact .inl rfl
  | times | dividedBy | modulo => exact .inr ⟨.product, .power, rfl, by decide⟩
  | plus | minus => exact .inr ⟨.sum, .product, rfl, by decide⟩
  | less | lessEq | greater | greaterEq | equal | notEqual => exact .inr ⟨.relation, .sum, rfl, by decide⟩
  | and => exact .inr ⟨.and, .relation, rfl, by decide⟩
  | or => exact .inr ⟨.or, .and, rfl, by decide⟩

/-- An operator stands between operands that are tightest phrases. -/
theorem derives_binary (op : BinaryOperator) (ha : Derives .primary ts a) (hb : Derives .primary us b) :
    Derives .or (ts ++ op.token :: us) (.binary op a b) := by
  rcases op.chain_cases with rfl | ⟨n, m, hoperand, hop⟩
  · exact derives_or (.raised (.plain ha) (.base (.plain hb)))
  · exact derives_or (.join hoperand hop (derives_of_primary ha) (derives_of_primary hb))

/-- An operator stands before an operand that is a tightest phrase. -/
theorem derives_unary_token (op : UnaryOperator) (h : Derives .primary ts e) :
    Derives .or (op.token :: ts) (.unary op e) := by
  have hop : (op.token, op) ∈ prefixes := by cases op <;> decide
  exact derives_or (.prefixed hop (.plain h))

/-- The grammar derives an expression from its tokens. -/
theorem Expr.Printable.derives (h : e.Printable) : Derives .primary e.tokens e := by
  induction h with
  | @literal value _ _ hvalue =>
    have hread : (Scalar.read? (shortestText value)).getD Scalar.nan = value :=
      congrArg (Option.getD · Scalar.nan) (readFloat?_shortestText hvalue)
    have hnumber := Derives.number (shortestText value)
    rwa [hread] at hnumber
  | reference _ hoperator => exact .name hoperator
  | unary op _ ih => exact .group (derives_unary_token op ih)
  | binary op _ _ ihleft ihright =>
    have hgroup := Derives.group (derives_binary op ihleft ihright)
    simpa [tokens] using hgroup
  | apply f _ ih => exact .call (Function.name_spec (.unary f)).2 (derives_or ih)
  | apply₂ f _ _ ihfirst ihsecond =>
    exact .call₂ (Function.name_spec (.binary f)).2 (derives_or ihfirst) (derives_or ihsecond)

/-- The text of an expression has this tree. -/
theorem Expr.Printable.parse_text_eq (h : e.Printable) : parse e.text = .ok e :=
  parse_eq_ok_iff.2 ⟨e.tokens, h.tokenize_text, derives_or h.derives⟩

end Derivations

/-! ## §4 Trees of formulas -/

/-- What is read without a sign has none. -/
theorem negative_of_magnitude? {cs : List Char} {x : Float} (hx : magnitude? false cs = some x)
    {negative : Bool} {m : Nat} {e : Int} (h : Binary.ofFloat x = .finite negative m e) : negative = false := by
  unfold magnitude? at hx
  dsimp only at hx
  split at hx
  · cases hx
    exact negative_of_floatOfBits h
  · split at hx
    · cases hx
      cases ofFloat_nan.symm.trans h
    · obtain ⟨⟨n, k⟩, -, heq⟩ := Option.map_eq_some_iff.1 hx
      obtain ⟨magnitude, hmagnitude⟩ := exists_floatOfBits false n k
      rw [← heq, hmagnitude] at h
      exact negative_of_floatOfBits h

/-- The numbers of formulas have no sign. -/
theorem negative_of_number {digits : String} (hdigits : (Token.number digits).WellFormed) {negative : Bool}
    {m : Nat} {e : Int} (h : Binary.ofFloat ((Scalar.read? digits).getD Scalar.nan) = .finite negative m e) :
    negative = false := by
  obtain ⟨c, hhead, hc⟩ := hdigits
  cases hread : readFloat? digits with
  | none =>
    have hvalue : (Scalar.read? digits).getD Scalar.nan = (Scalar.nan : Float) :=
      congrArg (Option.getD · Scalar.nan) hread
    rw [hvalue, ofFloat_nan] at h
    cases h
  | some x =>
    have hvalue : (Scalar.read? digits).getD Scalar.nan = x := congrArg (Option.getD · Scalar.nan) hread
    rw [hvalue] at h
    obtain ⟨cs, hcs⟩ := exists_magnitude?_of_head hhead hc hread
    exact negative_of_magnitude? hcs h

/-- The names in a formula are words that are no operators, and its numbers have no sign. -/
theorem printable_of_derives {n : Phrase} {ts : List Token} {e : Expr Float} (h : Derives n ts e)
    (hts : ∀ t ∈ ts, t.WellFormed) (hfinite : ∀ x ∈ e.literals, Scalar.isFinite x = true) : e.Printable := by
  induction h with
  | operand _ _ ih => exact ih hts hfinite
  | join _ _ _ _ iha ihb =>
    rw [List.forall_mem_append, List.forall_mem_cons] at hts
    rw [Expr.literals, List.forall_mem_append] at hfinite
    exact .binary _ (iha hts.1 hfinite.1) (ihb hts.2.2 hfinite.2)
  | base _ ih => exact ih hts hfinite
  | raised _ _ iha ihb =>
    rw [List.forall_mem_append, List.forall_mem_cons] at hts
    rw [Expr.literals, List.forall_mem_append] at hfinite
    exact .binary _ (iha hts.1 hfinite.1) (ihb hts.2.2 hfinite.2)
  | prefixed _ _ ih =>
    rw [List.forall_mem_cons] at hts
    exact .unary _ (ih hts.2 hfinite)
  | plain _ ih => exact ih hts hfinite
  | number digits =>
    -- a sign before the digits would be an operator
    obtain ⟨negative, m, e, hx⟩ := exists_of_isFinite (hfinite _ List.mem_cons_self)
    cases negative_of_number (hts _ List.mem_cons_self) hx
    exact .literal hx
  | name hname => exact .reference (hts _ List.mem_cons_self) hname
  | call _ _ ih =>
    rw [List.forall_mem_cons, List.forall_mem_cons, List.forall_mem_append] at hts
    exact .apply _ (ih hts.2.2.1 hfinite)
  | call₂ _ _ _ iha ihb =>
    rw [List.forall_mem_cons, List.forall_mem_cons, List.forall_mem_append, List.forall_mem_cons,
      List.forall_mem_append] at hts
    rw [Expr.literals, List.forall_mem_append] at hfinite
    exact .apply₂ _ (iha hts.2.2.1 hfinite.1) (ihb hts.2.2.2.2.1 hfinite.2)
  | group _ ih =>
    rw [List.forall_mem_cons, List.forall_mem_append] at hts
    exact ih hts.2.1 hfinite

theorem wellFormed_of_tokenize {formula : String} {ts : List Token} (h : tokenize formula = .ok ts) :
    ∀ t ∈ ts, t.WellFormed := by
  obtain ⟨left, hreads, -⟩ := tokenize_eq_ok_iff.1 h
  exact fun t ht => (hreads.hasForm t ht).wellFormed

/-! ## §5 Formulas -/

/-- The text of the tree of a formula with finite numbers has this tree, and so the value of the formula
whatever the names stand for. -/
theorem parse_text {formula : String} {e : Expr Float} (h : parse formula = .ok e)
    (hfinite : ∀ x ∈ e.literals, Scalar.isFinite x = true) :
    parse e.text = .ok e ∧
      ∀ scope : Valuation Float, (parse e.text).bind (Expr.eval scope) = (parse formula).bind (Expr.eval scope) := by
  obtain ⟨ts, hts, hderives⟩ := parse_eq_ok_iff.1 h
  have hparse := (printable_of_derives hderives (wellFormed_of_tokenize hts) hfinite).parse_text_eq
  exact ⟨hparse, fun scope => by rw [hparse, h]⟩

deriving instance DecidableEq for Expr

/-- A tree with operators of all kinds and a function that is used as a name. -/
def mixedTree : Expr Float :=
  .binary .or
    (.binary .power (.unary .not (.unary .minus (.reference "x.y"))) (.literal 0.001))
    (.apply₂ .max (.reference "sin") (.literal 0.5))

theorem parse_text_mixedTree :
    mixedTree.text = "(((not (- x.y)) ^ 0.001) or max(sin, 0.5))" ∧
      parse "(((not (- x.y)) ^ 0.001) or max(sin, 0.5))" = .ok mixedTree := by
  have htext : mixedTree.text = "(((not (- x.y)) ^ 0.001) or max(sin, 0.5))" := by decide +kernel
  have hparse : (parse "not -x.y ^ 1e-3 or max(sin, .5)").toOption = some mixedTree := by decide +kernel
  have hfinite : ∀ x ∈ mixedTree.literals, Scalar.isFinite x = true := by decide +kernel
  refine ⟨htext, ?_⟩
  rw [← htext]
  exact (parse_text (Checked.eq_ok_of_toOption hparse) hfinite).1

end FuzzyInference.Formula
