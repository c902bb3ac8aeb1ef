import FuzzyInference.Formula.Parser

/-!
# The grammar of formulas

Formulas have a grammar of eight kinds of phrases, each built from the next tighter one. The reader of
formulas accepts exactly the lists of tokens that the grammar derives, and builds the tree of the derivation.
The grammar is unambiguous: no list of tokens has two trees.

A reader takes as many tokens as it can. What it takes of a list that starts with a phrase depends on the
token that follows the phrase: an operator binds what stands before it more or less tightly, a parenthesis
turns a name into a call, and everything else ends all phrases. So the reader of a kind of phrases is
complete where the next token binds less tightly than this kind, and a chain of operators, which a further
operator extends, is read like the rest of a chain of which the phrase is the left operand.

The plan of this module:

* the grammar;
* soundness, along the recursive descent of the readers and with their measures;
* completeness, by induction on derivations;
* formulas.

## Main statements

* `derives_chain`: what is read was derived
* `completes`: what is derived is read
* `parse_spec`: the formulas that are accepted, and their trees
-/

namespace FuzzyInference.Formula

/-! ## §1 The grammar -/

/-- The kinds of phrases, from the loosest to the tightest. -/
inductive Phrase
  | or | and | relation | sum | product | power | unary | primary
deriving DecidableEq, Repr

namespace Phrase

/-- The operands of chains. -/
def operand? : Phrase → Option Phrase
  | or => some and
  | and => some relation
  | relation => some sum
  | sum => some product
  | product => some power
  | _ => none

/-- The operators between the operands of chains. -/
def operators : Phrase → List (Token × BinaryOperator)
  | or => [(.word "or", .or)]
  | and => [(.word "and", .and)]
  | relation =>
    [(.symbol .less, .less), (.symbol .lessEq, .lessEq), (.symbol .greater, .greater),
      (.symbol .greaterEq, .greaterEq), (.symbol .equal, .equal), (.symbol .notEqual, .notEqual)]
  | sum => [(.symbol .plus, .plus), (.symbol .minus, .minus)]
  | product => [(.symbol .star, .times), (.symbol .slash, .dividedBy), (.symbol .percent, .modulo)]
  | _ => []

end Phrase

/-- The operators before an operand. -/
def prefixes : List (Token × UnaryOperator) :=
  [(.symbol .minus, .minus), (.symbol .tilde, .tilde), (.symbol .plus, .plus), (.symbol .bang, .bang),
    (.word "not", .not)]

/-- The words that are operators. -/
def wordOperators : List String := ["and", "or", "not"]

/-- The tokens form a phrase of this kind, with this tree. -/
inductive Derives : Phrase → List Token → Expr Float → Prop
  /-- A chain of one operand. -/
  | operand {n m : Phrase} {ts : List Token} {e : Expr Float} (h : n.operand? = some m)
      (he : Derives m ts e) : Derives n ts e
  /-- A chain goes on with an operator and an operand, and groups to the left. -/
  | join {n m : Phrase} {t : Token} {op : BinaryOperator} {ts us : List Token} {a b : Expr Float}
      (h : n.operand? = some m) (hop : (t, op) ∈ n.operators) (ha : Derives n ts a) (hb : Derives m us b) :
      Derives n (ts ++ t :: us) (.binary op a b)
  /-- A base without an exponent. -/
  | base {ts : List Token} {e : Expr Float} (he : Derives .unary ts e) : Derives .power ts e
  /-- A base with an exponent, which is a power in turn. -/
  | raised {ts us : List Token} {a b : Expr Float} (ha : Derives .unary ts a) (hb : Derives .power us b) :
      Derives .power (ts ++ .symbol .caret :: us) (.binary .power a b)
  /-- An operator before an operand. -/
  | prefixed {t : Token} {op : UnaryOperator} {ts : List Token} {e : Expr Float} (hop : (t, op) ∈ prefixes)
      (he : Derives .unary ts e) : Derives .unary (t :: ts) (.unary op e)
  /-- An operand without operators. -/
  | plain {ts : List Token} {e : Expr Float} (he : Derives .primary ts e) : Derives .unary ts e
  | number (digits : String) :
      Derives .primary [.number digits] (.literal ((Scalar.read? digits).getD Scalar.nan))
  | name {name : String} (h : name ∉ wordOperators) : Derives .primary [.word name] (.reference name)
  /-- A call of a function of one argument. -/
  | call {name : String} {f : UnaryFunction} {ts : List Token} {a : Expr Float}
      (hf : Function.ofName? name = some (.unary f)) (ha : Derives .or ts a) :
      Derives .primary (.word name :: .symbol .opening :: (ts ++ [.symbol .closing])) (.apply f a)
  /-- A call of a function of two arguments. -/
  | call₂ {name : String} {f : BinaryFunction} {ts us : List Token} {a b : Expr Float}
      (hf : Function.ofName? name = some (.binary f)) (ha : Derives .or ts a) (hb : Derives .or us b) :
      Derives .primary
        (.word name :: .symbol .opening :: (ts ++ .symbol .comma :: (us ++ [.symbol .closing])))
        (.apply₂ f a b)
  /-- An expression in parentheses. -/
  | group {ts : List Token} {e : Expr Float} (he : Derives .or ts e) :
      Derives .primary (.symbol .opening :: (ts ++ [.symbol .closing])) e

/-! ### Levels of the reader -/

/-- The chains that the reader takes at a level. -/
def chainAt : Nat → Phrase
  | 0 => .or
  | 1 => .and
  | 2 => .relation
  | 3 => .sum
  | _ => .product

/-- The operands that the reader takes at a level. -/
def operandAt (level : Nat) : Phrase := if level < tightest then chainAt (level + 1) else .power

theorem operand?_chainAt (level : Nat) : (chainAt level).operand? = some (operandAt level) := by
  match level with
  | 0 | 1 | 2 | 3 => rfl
  | level + 4 =>
    rw [operandAt, if_neg (by simp [tightest])]
    rfl

theorem exists_level {n m : Phrase} (h : n.operand? = some m) :
    ∃ level ≤ tightest, n = chainAt level ∧ m = operandAt level := by
  cases n with
  | or => exact ⟨0, by decide, rfl, (Option.some.inj h).symm⟩
  | and => exact ⟨1, by decide, rfl, (Option.some.inj h).symm⟩
  | relation => exact ⟨2, by decide, rfl, (Option.some.inj h).symm⟩
  | sum => exact ⟨3, by decide, rfl, (Option.some.inj h).symm⟩
  | product => exact ⟨4, by decide, rfl, (Option.some.inj h).symm⟩
  | power | unary | primary => cases h

theorem mem_operators_of_operatorAt? {level : Nat} {t : Token} {op : BinaryOperator}
    (h : operatorAt? level t = some op) : (t, op) ∈ (chainAt level).operators := by
  unfold operatorAt? at h
  split at h
  all_goals first
    | (cases h; done)
    | (cases h; simp [chainAt, Phrase.operators])

theorem operatorAt?_of_mem_operators {level : Nat} (hlevel : level ≤ tightest) {t : Token}
    {op : BinaryOperator} (h : (t, op) ∈ (chainAt level).operators) : operatorAt? level t = some op := by
  have hall : ∀ level < 5, ∀ p ∈ (chainAt level).operators, operatorAt? level p.1 = some p.2 := by decide
  exact hall level (Nat.lt_succ_of_le hlevel) _ h

theorem unaryOperator?_eq_some_iff {t : Token} {op : UnaryOperator} :
    unaryOperator? t = some op ↔ (t, op) ∈ prefixes := by
  unfold unaryOperator?
  split <;> simp_all [prefixes, eq_comm]

/-! ## §2 Soundness -/

/-- What a reader takes of the tokens is a phrase of this kind. -/
def Sound (n : Phrase) {ts : List Token} (r : Reading ts) : Prop :=
  ∀ e rest, r = .ok (e, rest) → ∃ us, us ++ rest.1 = ts ∧ Derives n us e

namespace Sound

variable {n : Phrase} {ts : List Token}

theorem error (fault : FormulaFault) : Sound n (.error fault : Reading ts) := nofun

theorem ok {e : Expr Float} {rest : Fewer ts} {us : List Token} (hts : us ++ rest.1 = ts)
    (h : Derives n us e) : Sound n (.ok (e, rest)) := by
  intro e' rest' heq
  cases heq
  exact ⟨us, hts, h⟩

end Sound

/-- Expressions, each behind a comma. -/
def Listed : List (Expr Float) → List Token → Prop
  | [], us => us = []
  | a :: as, us => ∃ ts vs, us = .symbol .comma :: (ts ++ vs) ∧ Derives .or ts a ∧ Listed as vs

theorem eq_of_expect {s : Symbol} {ts : List Token} {rest : Fewer ts} (h : expect s ts = .ok rest) :
    ts = .symbol s :: rest.1 := by
  unfold expect at h
  split at h
  · cases h
  · split at h
    next ht =>
      cases h
      rw [ht]
    next => cases h

/-- A call is derived from its arguments. -/
theorem derives_call {name : String} {f : Function} (hf : Function.ofName? name = some f)
    {args : List (Expr Float)} {e : Expr Float} (he : call f args = .ok e) {first : Expr Float}
    {others : List (Expr Float)} (hargs : args = first :: others) {us vs : List Token}
    (hfirst : Derives .or us first) (hothers : Listed others vs) :
    Derives .primary (.word name :: .symbol .opening :: (us ++ vs ++ [.symbol .closing])) e := by
  subst hargs
  unfold call at he
  split at he
  · rename_i f a hsingle
    obtain ⟨rfl, rfl⟩ := List.cons.inj hsingle
    cases he
    obtain rfl : vs = [] := hothers
    rw [List.append_nil]
    exact .call hf hfirst
  · rename_i f a b hpair
    obtain ⟨rfl, rfl⟩ := List.cons.inj hpair
    cases he
    obtain ⟨ws, vs', rfl, hb, rfl⟩ := hothers
    simpa using Derives.call₂ hf hfirst hb
  · cases he

mutual

/-- Chains of one level. The proof descends as the reader does, with the same measures. -/
theorem derives_chain (level : Nat) (ts : List Token) : Sound (chainAt level) (chain level ts) := by
  rw [chain]
  split
  · exact .error _
  · rename_i left rest hlt hleft
    obtain ⟨us, hts, hus⟩ := derives_operand level ts left _ hleft
    -- what follows extends the chain of one operand
    split
    · exact .error _
    · rename_i e rest' _ hrest
      obtain ⟨vs, hvs, he⟩ :=
        derives_chainRest level left rest (.operand (operand?_chainAt level) hus) e _ hrest
      refine .ok ?_ he
      rw [List.append_assoc, hvs]
      exact hts
termination_by 16 * ts.length + (7 + 2 * (tightest - level))
decreasing_by all_goals omega

theorem derives_operand (level : Nat) (ts : List Token) : Sound (operandAt level) (operand level ts) := by
  rw [operand, operandAt]
  split
  · exact derives_chain (level + 1) ts
  · exact derives_power ts
termination_by 16 * ts.length + (6 + 2 * (tightest - level))
decreasing_by all_goals omega

/-- The chain on the left was read before. -/
theorem derives_chainRest (level : Nat) (left : Expr Float) (ts : List Token) {us : List Token}
    (hleft : Derives (chainAt level) us left) :
    ∀ e rest, chainRest level left ts = .ok (e, rest) →
      ∃ vs, vs ++ rest.1 = ts ∧ Derives (chainAt level) (us ++ vs) e := by
  intro e rest h
  match ts with
  | [] =>
    rw [chainRest] at h
    cases h
    exact ⟨[], rfl, by rwa [List.append_nil]⟩
  | t :: ts =>
    rw [chainRest] at h
    split at h
    · cases h
      exact ⟨[], rfl, by rwa [List.append_nil]⟩
    · rename_i op hop
      split at h
      · cases h
      · rename_i right rest₁ hlt hright
        obtain ⟨ws, hts, hws⟩ := derives_operand level ts right _ hright
        have hjoin := Derives.join (operand?_chainAt level) (mem_operators_of_operatorAt? hop) hleft hws
        split at h
        · cases h
        · rename_i e' rest₂ _ hrest
          obtain ⟨vs, hvs, he⟩ := derives_chainRest level (.binary op left right) rest₁ hjoin e' _ hrest
          cases h
          refine ⟨t :: (ws ++ vs), ?_, by simpa using he⟩
          rw [List.cons_append, List.append_assoc, hvs]
          exact congrArg (t :: ·) hts
termination_by 16 * ts.length
decreasing_by
  · simp only [tightest, List.length_cons]; omega
  · simp only [List.length_cons]; omega

theorem derives_power (ts : List Token) : Sound .power (power ts) := by
  rw [power]
  split
  · exact .error _
  · rename_i base rest hlt hbase
    obtain ⟨us, hts, hus⟩ := derives_unary ts base _ hbase
    split
    · rename_i rest₁ hlt₁
      split
      · exact .error _
      · rename_i exponent rest₂ _ hexponent
        obtain ⟨vs, hvs, hexp⟩ := derives_power rest₁ exponent _ hexponent
        refine .ok ?_ (.raised hus hexp)
        rw [List.append_assoc, List.cons_append, hvs]
        exact hts
    · exact .ok hts (.base hus)
termination_by 16 * ts.length + 5
decreasing_by
  · omega
  · simp only [List.length_cons] at hlt; omega

theorem derives_unary (ts : List Token) : Sound .unary (unary ts) := by
  match ts with
  | [] =>
    rw [unary]
    exact .error _
  | t :: ts =>
    rw [unary]
    split
    · rename_i hnone
      intro e rest h
      obtain ⟨us, hts, hus⟩ := derives_primary t ts hnone e rest h
      exact ⟨us, hts, .plain hus⟩
    · rename_i op hop
      split
      · exact .error _
      · rename_i operand rest _ hoperand
        obtain ⟨us, hts, hus⟩ := derives_unary ts operand _ hoperand
        exact .ok (congrArg (t :: ·) hts) (.prefixed (unaryOperator?_eq_some_iff.1 hop) hus)
termination_by 16 * ts.length + 4
decreasing_by all_goals (simp only [List.length_cons]; omega)

/-- The first token is no operator before an operand. -/
theorem derives_primary (t : Token) (ts : List Token) (ht : unaryOperator? t = none) :
    Sound .primary (primary t ts) := by
  rw [primary.eq_def]
  split
  · -- an expression in parentheses
    split
    · exact .error _
    · rename_i e rest _ hinner
      obtain ⟨us, hts, hus⟩ := derives_chain 0 ts e _ hinner
      split
      · exact .error _
      · rename_i rest' _ hclosing
        refine .ok ?_ (.group hus)
        rw [List.cons_append, List.append_assoc, List.singleton_append, ← eq_of_expect hclosing]
        exact congrArg (.symbol .opening :: ·) hts
  · rename_i digits
    exact .ok rfl (.number digits)
  · rename_i name
    split
    · exact .error _
    · rename_i hname
      split
      · rename_i rest
        split
        · exact .error _
        · rename_i f hf
          split
          · exact .error _
          · rename_i args rest₁ _ hargs
            split
            · exact .error _
            · rename_i e he
              -- no function is without arguments
              obtain rfl | ⟨first, others, us, vs, rfl, hts, hfirst, hothers⟩ :=
                derives_arguments rest args _ hargs
              · cases f <;> cases he
              · refine .ok ?_ (derives_call hf he rfl hfirst hothers)
                simpa using hts
      · refine .ok rfl (.name fun hmem => ?_)
        simp only [wordOperators, List.mem_cons, List.not_mem_nil, or_false] at hmem
        rcases hmem with rfl | rfl | rfl
        · exact hname rfl
        · exact hname rfl
        · cases ht
  · exact .error _
termination_by 16 * ts.length + 16
decreasing_by
  · simp only [tightest]; omega
  · subst_vars; simp only [List.length_cons]; omega

/-- A call without arguments has none, and another one has a first argument. -/
theorem derives_arguments (ts : List Token) :
    ∀ args rest, arguments ts = .ok (args, rest) →
      args = [] ∨ ∃ first others us vs, args = first :: others ∧
        us ++ vs ++ .symbol .closing :: rest.1 = ts ∧ Derives .or us first ∧ Listed others vs := by
  intro args rest h
  rw [arguments.eq_def] at h
  split at h
  · cases h
    exact .inl rfl
  · split at h
    · cases h
    · rename_i first rest₁ _ hfirst
      obtain ⟨us, hts, hus⟩ := derives_chain 0 ts first _ hfirst
      split at h
      · cases h
      · rename_i others rest₂ _ hothers
        obtain ⟨vs, hvs, hlisted⟩ := derives_argumentsRest rest₁ others _ hothers
        cases h
        refine .inr ⟨first, others, us, vs, rfl, ?_, hus, hlisted⟩
        rw [List.append_assoc, hvs]
        exact hts
termination_by 16 * ts.length + 16
decreasing_by
  · simp only [tightest]; omega
  · omega

theorem derives_argumentsRest (ts : List Token) :
    ∀ args rest, argumentsRest ts = .ok (args, rest) →
      ∃ vs, vs ++ .symbol .closing :: rest.1 = ts ∧ Listed args vs := by
  intro args rest h
  rw [argumentsRest.eq_def] at h
  split at h
  · rename_i us
    split at h
    · cases h
    · rename_i next rest₁ _ hnext
      obtain ⟨us, hts, hus⟩ := derives_chain 0 us next _ hnext
      split at h
      · cases h
      · rename_i others rest₂ _ hothers
        obtain ⟨vs, hvs, hlisted⟩ := derives_argumentsRest rest₁ others _ hothers
        cases h
        refine ⟨.symbol .comma :: (us ++ vs), ?_, us, vs, rfl, hus, hlisted⟩
        rw [List.cons_append, List.append_assoc, hvs]
        exact congrArg (.symbol .comma :: ·) hts
  · split at h
    · cases h
    · rename_i rest₁ hclosing
      cases h
      exact ⟨[], (eq_of_expect hclosing).symm, rfl⟩
termination_by 16 * ts.length
decreasing_by
  · subst_vars; simp only [tightest, List.length_cons]; omega
  · subst_vars; simp only [List.length_cons]; omega

end

/-! ## §3 Completeness -/

/-- How tightly a token binds what stands before it; nothing that is not an operator or an opening parenthesis
binds at all. -/
def Token.grip : Token → Nat
  | .word "or" => 1
  | .word "and" => 2
  | .symbol .less | .symbol .lessEq | .symbol .greater | .symbol .greaterEq | .symbol .equal
  | .symbol .notEqual => 3
  | .symbol .plus | .symbol .minus => 4
  | .symbol .star | .symbol .slash | .symbol .percent => 5
  | .symbol .caret => 6
  | .symbol .opening => 7
  | _ => 0

/-- How tightly the first of the tokens binds. -/
def grip : List Token → Nat
  | [] => 0
  | t :: _ => t.grip

theorem grip_of_operatorAt? {level : Nat} {t : Token} {op : BinaryOperator}
    (h : operatorAt? level t = some op) : t.grip = level + 1 := by
  unfold operatorAt? at h
  split at h
  all_goals first
    | (cases h; done)
    | rfl

/-- The reader gives this expression and leaves these tokens. -/
def Reads {ts : List Token} (r : Reading ts) (e : Expr Float) (rest : List Token) : Prop :=
  ∃ h, r = .ok (e, ⟨rest, h⟩)

/-- The rest of a chain gives this expression and leaves these tokens. -/
def Continues (level : Nat) (left : Expr Float) (ts : List Token) (e : Expr Float) (rest : List Token) : Prop :=
  ∃ h, chainRest level left ts = .ok (e, ⟨rest, h⟩)

/-- A chain ends before a token that binds less tightly than its operators. -/
theorem continues_nil {level : Nat} {ts : List Token} (h : grip ts ≤ level) (left : Expr Float) :
    Continues level left ts left ts := by
  cases ts with
  | nil => exact ⟨_, by rw [chainRest]⟩
  | cons t ts =>
    have hnone : operatorAt? level t = none := by
      cases hop : operatorAt? level t with
      | none => rfl
      | some op =>
        have hgrip : t.grip ≤ level := h
        rw [grip_of_operatorAt? hop] at hgrip
        omega
    refine ⟨Nat.le_refl _, ?_⟩
    rw [chainRest, hnone]

/-! ### Readers step by step -/

theorem continues_cons {level : Nat} {t : Token} {op : BinaryOperator} {a b e : Expr Float}
    {ts mid rest : List Token} (hop : operatorAt? level t = some op) (hb : Reads (operand level ts) b mid)
    (h : Continues level (.binary op a b) mid e rest) : Continues level a (t :: ts) e rest := by
  obtain ⟨hmid, hb⟩ := hb
  obtain ⟨hrest, h⟩ := h
  refine ⟨?_, by rw [chainRest, hop]; simp only [hb, h]⟩
  simp only [List.length_cons]
  omega

theorem reads_chain {level : Nat} {a e : Expr Float} {ts mid rest : List Token}
    (ha : Reads (operand level ts) a mid) (h : Continues level a mid e rest) :
    Reads (chain level ts) e rest := by
  obtain ⟨hmid, ha⟩ := ha
  obtain ⟨hrest, h⟩ := h
  exact ⟨Nat.lt_of_le_of_lt hrest hmid, by rw [chain]; simp only [ha, h]⟩

/-- A base that no exponent follows. -/
theorem reads_base {e : Expr Float} {ts rest : List Token} (h : Reads (unary ts) e rest)
    (hrest : grip rest ≤ 5) : Reads (power ts) e rest := by
  obtain ⟨hlt, h⟩ := h
  refine ⟨hlt, ?_⟩
  rw [power]
  simp only [h]
  split
  -- only a caret would go on
  · exact absurd hrest (by simp [grip, Token.grip])
  · rfl

theorem reads_raised {a b : Expr Float} {ts us rest : List Token}
    (ha : Reads (unary ts) a (.symbol .caret :: us)) (hb : Reads (power us) b rest) :
    Reads (power ts) (.binary .power a b) rest := by
  obtain ⟨hmid, ha⟩ := ha
  obtain ⟨hrest, hb⟩ := hb
  refine ⟨?_, by rw [power]; simp only [ha, hb]⟩
  simp only [List.length_cons] at hmid
  omega

theorem reads_prefixed {t : Token} {op : UnaryOperator} {e : Expr Float} {ts rest : List Token}
    (hop : unaryOperator? t = some op) (h : Reads (unary ts) e rest) :
    Reads (unary (t :: ts)) (.unary op e) rest := by
  obtain ⟨hrest, h⟩ := h
  refine ⟨?_, by rw [unary, hop]; simp only [h]⟩
  simp only [List.length_cons]
  omega

theorem reads_plain {t : Token} {e : Expr Float} {ts rest : List Token} (ht : unaryOperator? t = none)
    (h : Reads (primary t ts) e rest) : Reads (unary (t :: ts)) e rest := by
  obtain ⟨hrest, h⟩ := h
  exact ⟨hrest, by rw [unary, ht]; exact h⟩

theorem reads_group {e : Expr Float} {ts rest : List Token}
    (h : Reads (chain 0 ts) e (.symbol .closing :: rest)) : Reads (primary (.symbol .opening) ts) e rest := by
  obtain ⟨hrest, h⟩ := h
  refine ⟨?_, by rw [primary]; simp only [h, expect, if_true]⟩
  simp only [List.length_cons] at hrest ⊢
  omega

/-- A word that is no operator is none before an operand. -/
theorem unaryOperator?_word {name : String} (h : name ∉ wordOperators) :
    unaryOperator? (.word name) = none := by
  cases hop : unaryOperator? (.word name) with
  | none => rfl
  | some op =>
    have hmem := unaryOperator?_eq_some_iff.1 hop
    obtain ⟨rfl, -⟩ : name = "not" ∧ op = .not := by simpa [prefixes] using hmem
    exact absurd (by simp [wordOperators]) h

/-- A word that is no operator lacks no operand on its left. -/
theorem ne_and_or {name : String} (h : name ∉ wordOperators) :
    (decide (name = "and") || decide (name = "or")) = false := by
  simp only [wordOperators, List.mem_cons, not_or] at h
  simp [h.1, h.2.1]

/-- A name that no parenthesis follows. -/
theorem reads_name {name : String} (h : name ∉ wordOperators) {rest : List Token} (hrest : grip rest ≤ 6) :
    Reads (primary (.word name) rest) (.reference name) rest := by
  refine ⟨by simp, ?_⟩
  rw [primary.eq_def]
  simp only [ne_and_or h, Bool.false_eq_true, if_false]
  split
  -- only a parenthesis would make it a call
  · exact absurd hrest (by simp [grip, Token.grip])
  · rfl

/-- No function has the name of an operator. -/
theorem not_mem_wordOperators_of_ofName? {name : String} {f : Function}
    (h : Function.ofName? name = some f) : name ∉ wordOperators := by
  have hnone : ∀ word ∈ wordOperators, Function.ofName? word = none := by decide
  intro hmem
  rw [hnone name hmem] at h
  cases h

theorem unaryOperator?_of_ofName? {name : String} {f : Function} (h : Function.ofName? name = some f) :
    unaryOperator? (.word name) = none :=
  unaryOperator?_word (not_mem_wordOperators_of_ofName? h)

/-- The reader of arguments gives these and leaves these tokens. -/
def ReadsAll {ts : List Token} (r : Except FormulaFault (List (Expr Float) × Fewer ts))
    (args : List (Expr Float)) (rest : List Token) : Prop :=
  ∃ h, r = .ok (args, ⟨rest, h⟩)

theorem readsAll_closing (ts : List Token) : ReadsAll (argumentsRest (.symbol .closing :: ts)) [] ts :=
  ⟨by simp, by rw [argumentsRest.eq_def]; simp [expect]⟩

theorem readsAll_comma {ts mid rest : List Token} {a : Expr Float} {as : List (Expr Float)}
    (ha : Reads (chain 0 ts) a mid) (has : ReadsAll (argumentsRest mid) as rest) :
    ReadsAll (argumentsRest (.symbol .comma :: ts)) (a :: as) rest := by
  obtain ⟨hmid, ha⟩ := ha
  obtain ⟨hrest, has⟩ := has
  refine ⟨?_, by rw [argumentsRest]; simp only [ha, has]⟩
  simp only [List.length_cons]
  omega

/-- An argument does not start with the parenthesis that closes the call. -/
theorem readsAll_first {ts mid rest : List Token} (hts : ∀ us, ts ≠ .symbol .closing :: us) {a : Expr Float}
    {as : List (Expr Float)} (ha : Reads (chain 0 ts) a mid) (has : ReadsAll (argumentsRest mid) as rest) :
    ReadsAll (arguments ts) (a :: as) rest := by
  obtain ⟨hmid, ha⟩ := ha
  obtain ⟨hrest, has⟩ := has
  refine ⟨by omega, ?_⟩
  rw [arguments.eq_def]
  split
  · exact absurd rfl (hts _)
  · simp only [ha, has]

theorem reads_call {name : String} {f : Function} (hf : Function.ofName? name = some f)
    {args : List (Expr Float)} {e : Expr Float} (he : call f args = .ok e) {ts rest : List Token}
    (h : ReadsAll (arguments ts) args rest) : Reads (primary (.word name) (.symbol .opening :: ts)) e rest := by
  obtain ⟨hrest, h⟩ := h
  refine ⟨?_, ?_⟩
  · simp only [List.length_cons]
    omega
  · rw [primary.eq_def]
    simp only [ne_and_or (not_mem_wordOperators_of_ofName? hf), Bool.false_eq_true,
      if_false, hf, h, he]

/-! ### Derivations -/

/-- A phrase starts with a token that closes nothing. -/
theorem exists_head {n : Phrase} {ts : List Token} {e : Expr Float} (h : Derives n ts e) :
    ∃ t us, ts = t :: us ∧ t ≠ .symbol .closing := by
  induction h with
  | operand _ _ ih | base _ ih | plain _ ih => exact ih
  | join _ _ _ _ ih _ | raised _ _ ih _ =>
    obtain ⟨t, us, rfl, ht⟩ := ih
    exact ⟨t, _, rfl, ht⟩
  | prefixed hop _ _ =>
    refine ⟨_, _, rfl, ?_⟩
    rintro rfl
    simp [prefixes] at hop
  | number | name | call | call₂ | group => exact ⟨_, _, rfl, by simp⟩

theorem append_ne_closing {n : Phrase} {ts : List Token} {e : Expr Float} (h : Derives n ts e)
    (rest us : List Token) : ts ++ rest ≠ .symbol .closing :: us := by
  obtain ⟨t, vs, rfl, ht⟩ := exists_head h
  exact fun heq => ht (List.cons.inj heq).1

/-- A chain that the reader takes is read like the rest of a chain of which it is the left operand. -/
def CompleteChain (level : Nat) (ts : List Token) (e : Expr Float) : Prop :=
  ∀ rest e' rest', grip rest ≤ level + 1 → Continues level e rest e' rest' →
    Reads (chain level (ts ++ rest)) e' rest'

/-- A phrase is read where the token that follows binds less tightly. -/
def Complete : Phrase → List Token → Expr Float → Prop
  | .or => CompleteChain 0
  | .and => CompleteChain 1
  | .relation => CompleteChain 2
  | .sum => CompleteChain 3
  | .product => CompleteChain 4
  | .power => fun ts e => ∀ rest, grip rest ≤ 5 → Reads (power (ts ++ rest)) e rest
  | .unary | .primary => fun ts e => ∀ rest, grip rest ≤ 6 → Reads (unary (ts ++ rest)) e rest

theorem complete_chainAt {level : Nat} (h : level ≤ tightest) (ts : List Token) (e : Expr Float) :
    Complete (chainAt level) ts e ↔ CompleteChain level ts e := by
  match level, h with
  | 0, _ | 1, _ | 2, _ | 3, _ | 4, _ => rfl
  | level + 5, h => exact absurd h (by simp [tightest])

/-- A chain that no operator of its level extends is read as it is. -/
theorem CompleteChain.reads {level : Nat} {ts : List Token} {e : Expr Float} (h : CompleteChain level ts e)
    (rest : List Token) (hrest : grip rest ≤ level) : Reads (chain level (ts ++ rest)) e rest :=
  h rest e rest (Nat.le_succ_of_le hrest) (continues_nil hrest e)

theorem reads_operand {level : Nat} (hlevel : level ≤ tightest) {ts : List Token} {e : Expr Float}
    (h : Complete (operandAt level) ts e) {rest : List Token} (hrest : grip rest ≤ level + 1) :
    Reads (operand level (ts ++ rest)) e rest := by
  rw [operandAt] at h
  rw [operand]
  split at h
  next hlt =>
    rw [if_pos hlt]
    exact ((complete_chainAt hlt ts e).1 h).reads rest hrest
  next hlt =>
    rw [if_neg hlt]
    exact h rest (by unfold tightest at hlevel; omega)

/-- What is derived is read, by induction on the derivation. -/
theorem completes {n : Phrase} {ts : List Token} {e : Expr Float} (h : Derives n ts e) : Complete n ts e := by
  induction h with
  | operand hoperand _ ih =>
    obtain ⟨level, hlevel, rfl, rfl⟩ := exists_level hoperand
    rw [complete_chainAt hlevel]
    intro rest e' rest' hrest hcontinues
    exact reads_chain (reads_operand hlevel ih hrest) hcontinues
  | join hoperand hop _ _ iha ihb =>
    obtain ⟨level, hlevel, rfl, rfl⟩ := exists_level hoperand
    have hoperator := operatorAt?_of_mem_operators hlevel hop
    rw [complete_chainAt hlevel] at iha ⊢
    intro rest e' rest' hrest hcontinues
    -- the operator and the operand on its right belong to the rest of the chain on its left
    rw [List.append_assoc]
    refine iha _ e' rest' (Nat.le_of_eq (grip_of_operatorAt? hoperator)) ?_
    exact continues_cons hoperator (reads_operand hlevel ihb hrest) hcontinues
  | base _ ih => exact fun rest hrest => reads_base (ih rest (Nat.le_succ_of_le hrest)) hrest
  | raised _ _ iha ihb =>
    intro rest hrest
    rw [List.append_assoc]
    exact reads_raised (iha _ (Nat.le_refl _)) (ihb rest hrest)
  | prefixed hop _ ih =>
    exact fun rest hrest => reads_prefixed (unaryOperator?_eq_some_iff.2 hop) (ih rest hrest)
  | plain _ ih => exact ih
  | number digits => exact fun rest _ => reads_plain rfl ⟨by simp, by rw [primary]; rfl⟩
  | name h => exact fun rest hrest => reads_plain (unaryOperator?_word h) (reads_name h hrest)
  | call hf ha ih =>
    intro rest _
    have harg := CompleteChain.reads ih (.symbol .closing :: rest) (Nat.le_refl _)
    have hargs := readsAll_first (append_ne_closing ha _) harg (readsAll_closing rest)
    rw [List.cons_append, List.cons_append, List.append_assoc, List.singleton_append]
    exact reads_plain (unaryOperator?_of_ofName? hf) (reads_call hf rfl hargs)
  | @call₂ _ _ _ us _ _ hf ha hb iha ihb =>
    intro rest _
    have hsecond := CompleteChain.reads ihb (.symbol .closing :: rest) (Nat.le_refl _)
    have hfirst := CompleteChain.reads iha
      (.symbol .comma :: (us ++ .symbol .closing :: rest)) (Nat.le_refl _)
    have hargs := readsAll_first (append_ne_closing ha _) hfirst (readsAll_comma hsecond (readsAll_closing rest))
    rw [List.cons_append, List.cons_append, List.append_assoc, List.cons_append, List.append_assoc,
      List.singleton_append]
    exact reads_plain (unaryOperator?_of_ofName? hf) (reads_call hf rfl hargs)
  | group _ ih =>
    intro rest _
    rw [List.cons_append, List.append_assoc, List.singleton_append]
    exact reads_plain rfl (reads_group (CompleteChain.reads ih _ (Nat.le_refl _)))

/-! ## §4 Formulas -/

/-- The tokens of which the reader takes all are those that the grammar derives. -/
theorem ofTokens_eq_ok_iff {ts : List Token} {e : Expr Float} : ofTokens ts = .ok e ↔ Derives .or ts e := by
  constructor
  · intro h
    unfold ofTokens at h
    split at h
    · cases h
    · rename_i hread
      obtain ⟨us, hts, hus⟩ := derives_chain 0 ts _ _ hread
      cases h
      rw [← hts, List.append_nil]
      exact hus
    · cases h
  · intro h
    have hreads := CompleteChain.reads (completes h) [] (Nat.le_refl _)
    rw [List.append_nil] at hreads
    obtain ⟨hlt, hread⟩ := hreads
    simp only [ofTokens, hread]

/-- No list of tokens has two trees. -/
theorem eq_of_derives {ts : List Token} {e e' : Expr Float} (h : Derives .or ts e) (h' : Derives .or ts e') :
    e = e' :=
  Except.ok.inj ((ofTokens_eq_ok_iff.2 h).symm.trans (ofTokens_eq_ok_iff.2 h'))

/-- Whatever refuses a formula is a mistake in the configuration. -/
theorem exists_of_parse_error {formula : String} {err : Error} (h : parse formula = .error err) :
    ∃ mistake, err = .configuration mistake := by
  unfold parse at h
  split at h
  next e htokens =>
    unfold tokenize at htokens
    dsimp only at htokens
    split at htokens
    · cases htokens
    · cases htokens
      cases h
      exact ⟨_, rfl⟩
  next =>
    cases h
    exact ⟨_, rfl⟩
  next ts _ _ =>
    cases hread : ofTokens ts with
    | ok e =>
      rw [hread] at h
      cases h
    | error fault =>
      rw [hread] at h
      cases h
      exact ⟨_, rfl⟩

theorem parse_eq_ok_iff {formula : String} {e : Expr Float} :
    parse formula = .ok e ↔ ∃ ts, tokenize formula = .ok ts ∧ Derives .or ts e := by
  unfold parse
  split
  next err htokens => simp [htokens]
  next htokens =>
    rw [htokens]
    constructor
    · nofun
    · rintro ⟨ts, hts, h⟩
      cases hts
      obtain ⟨t, us, hnil, -⟩ := exists_head h
      cases hnil
  next ts _ htokens =>
    simp only [htokens, Except.ok.injEq, exists_eq_left', ← ofTokens_eq_ok_iff]
    -- only the error is renamed
    cases ofTokens ts with
    | ok tree =>
      constructor
      · intro h
        cases h
        rfl
      · intro h
        cases h
        rfl
    | error fault =>
      constructor
      · intro h
        cases h
      · intro h
        cases h

/-- A formula is accepted when it consists of tokens that the grammar derives, and it has the tree of the
derivation, of which there is only one. Any other formula is refused as a mistake in the configuration. -/
theorem parse_spec (formula : String) :
    (∀ e, parse formula = .ok e ↔ ∃ ts, tokenize formula = .ok ts ∧ Derives .or ts e) ∧
    (∀ ts e e', Derives .or ts e → Derives .or ts e' → e = e') ∧
    ((¬∃ ts e, tokenize formula = .ok ts ∧ Derives .or ts e) →
      ∃ mistake, parse formula = .error (.configuration mistake)) := by
  refine ⟨fun e => parse_eq_ok_iff, fun _ _ _ => eq_of_derives, fun h => ?_⟩
  cases hparse : parse formula with
  | ok e =>
    obtain ⟨ts, hts, hderives⟩ := parse_eq_ok_iff.1 hparse
    exact absurd ⟨ts, e, hts, hderives⟩ h
  | error err =>
    obtain ⟨mistake, rfl⟩ := exists_of_parse_error hparse
    exact ⟨mistake, rfl⟩

end FuzzyInference.Formula
