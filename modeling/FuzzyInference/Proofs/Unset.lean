import FuzzyInference.Proofs.References
import FuzzyInference.Proofs.Silence

/-!
# Inputs that were never set

The value of an input that was never set is `nan`, and so is the degree of every proposition about a curve
of it. What becomes of a conjunction of which some degrees are `nan` depends on the T-norm. Products keep
`nan`, and the nilpotent minimum turns it into a zero that it never leaves again. The other three lose it in
some places: the minimum of a degree and `nan` is the degree, the drastic product of one and `nan` is one,
and the bounded difference turns `nan` into a zero that a degree above one outweighs.

The plan of this module:

* what unset inputs force on a degree, as an abstract value, and one table of it for each T-norm;
* the table is right at every pair of degrees, and as precise as it can be;
* conditions, by induction on the tree, and a cycle.

## Main statements

* `TNorm.allows_forced`: the table is right
* `Condition.allows_forced`, `Condition.degree_sample`: so are the forced degrees of conditions
* `Engine.not_fires_of_unset`: when unset inputs keep a rule from firing
-/

namespace FuzzyInference

open Scalar Checked

/-! ## §1 Forced degrees -/

/-- What unset inputs determine of a degree, whatever the values of the other inputs are. -/
inductive Forced
  /-- The degree is `nan`. -/
  | unknown
  /-- The degree is zero. -/
  | zero
  /-- The degree depends on the other inputs. -/
  | free
deriving DecidableEq, Repr

/-- The degrees that are left. -/
def Forced.Allows : Forced → Float → Prop
  | unknown, x => x = nan
  | zero, x => x = 0.0
  | free, _ => True

/-- Degrees that are forced never become positive. -/
theorem Forced.Allows.of_ne_free {s : Forced} {x : Float} (h : s.Allows x) (hs : s ≠ .free) :
    x = nan ∨ x = 0.0 := by
  cases s with
  | unknown => exact .inl h
  | zero => exact .inr h
  | free => exact absurd rfl hs

namespace TNorm

/-- What is forced on the value of a norm by what is forced on its two operands. -/
def forced (t : TNorm) (s u : Forced) : Forced :=
  match t with
  -- nothing is smaller than `nan`, and `nan` is not smaller than anything
  | minimum => if s = .unknown then .unknown else .free
  | algebraicProduct | einsteinProduct | hamacherProduct =>
    if s = .unknown ∨ u = .unknown then .unknown else .free
  | nilpotentMinimum => if s ≠ .free ∨ u ≠ .free then .zero else .free
  -- one and `nan` make one
  | drasticProduct => if s ≠ .free ∨ u = .zero then .zero else .free
  -- zero and a degree above one make more than zero
  | boundedDifference =>
    if s = .unknown ∨ u = .unknown ∨ (s = .zero ∧ u = .zero) then .zero else .free

/-- The norms under which one unset input is enough. -/
def keepsUnknown : TNorm → Bool
  | algebraicProduct | einsteinProduct | hamacherProduct | nilpotentMinimum => true
  | minimum | drasticProduct | boundedDifference => false

/-- The norms that turn `nan` into zero. -/
def annuls : TNorm → Bool
  | nilpotentMinimum | drasticProduct | boundedDifference => true
  | minimum | algebraicProduct | einsteinProduct | hamacherProduct => false

/-! ### Norms at `nan` and zero -/

variable {a b d : Float}

theorem least_nan (b : Float) : least nan b = nan := if_neg (Float.not_lt_nan b)

theorem compute_minimum_nan (h : minimum.compute nan b = .ok d) : d = nan := by
  cases h
  exact least_nan b

/-- The three products are quotients of a product, which is `nan`. -/
theorem compute_product_nan {t : TNorm} (ht : t ∈ [algebraicProduct, einsteinProduct, hamacherProduct])
    (hab : a = nan ∨ b = nan) (h : t.compute a b = .ok d) : d = nan := by
  have hmul := Float.mul_eq_nan hab
  have hadd := Float.add_eq_nan hab
  -- what is left has `nan` as its only operand
  have hclosed : t.compute a b = .ok nan := by
    simp only [List.mem_cons, List.not_mem_nil, or_false] at ht
    rcases ht with rfl | rfl | rfl
    · exact congrArg Except.ok hmul
    · simp only [compute, hmul, hadd]
      decide
    · simp only [compute, hmul, hadd]
      decide
  rw [hclosed] at h
  cases h
  rfl

theorem compute_boundedDifference_nan (hab : a = nan ∨ b = nan)
    (h : boundedDifference.compute a b = .ok d) : d = 0.0 := by
  cases h
  rw [Float.add_eq_nan hab]
  decide

/-- Neither `nan` nor zero is near to one, and `nan` is not above it. -/
theorem not_near_one :
    above (nan : Float) 1.0 = false ∧ near (nan : Float) 1.0 = false ∧ near (0.0 : Float) 1.0 = false := by
  decide

theorem compute_nilpotentMinimum_nan (hab : a = nan ∨ b = nan)
    (h : nilpotentMinimum.compute a b = .ok d) : d = 0.0 := by
  cases h
  rw [Float.add_eq_nan hab, not_near_one.1]
  rfl

theorem compute_drasticProduct_nan (h : drasticProduct.compute nan b = .ok d) : d = 0.0 := by
  have hgreatest : greatest nan b = nan := if_neg (Float.not_nan_lt b)
  cases h
  rw [hgreatest, not_near_one.2.1]
  rfl

/-- The norms that zero annuls. -/
def zeroNorms : List TNorm := [nilpotentMinimum, drasticProduct]

/-- Beside zero, `nan` and the zeros give zero. -/
theorem compute_zeroNorms : ∀ t ∈ zeroNorms, ∀ x ∈ [nan, 0.0, -0.0],
    t.compute (0.0 : Float) x = .ok 0.0 ∧ t.compute x (0.0 : Float) = .ok 0.0 := by
  decide

/-- Beside zero, it is enough to look at numbers that have a sign. -/
theorem compute_zero_of_signed {t : TNorm} (ht : t ∈ zeroNorms)
    (hpositive : ∀ x : Float, 0.0 < x → t.compute 0.0 x = .ok 0.0 ∧ t.compute x 0.0 = .ok 0.0)
    (hnegative : ∀ x : Float, x < 0.0 → t.compute 0.0 x = .ok 0.0 ∧ t.compute x 0.0 = .ok 0.0)
    (hab : a = 0.0 ∨ b = 0.0) (h : t.compute a b = .ok d) : d = 0.0 := by
  have hall (x : Float) : t.compute 0.0 x = .ok 0.0 ∧ t.compute x 0.0 = .ok 0.0 := by
    rcases Float.sign_cases x with rfl | (rfl | rfl) | hx | hx
    · exact compute_zeroNorms t ht _ (by simp)
    · exact compute_zeroNorms t ht _ (by simp)
    · exact compute_zeroNorms t ht _ (by simp)
    · exact hpositive x hx
    · exact hnegative x hx
  rcases hab with rfl | rfl
  · exact Except.ok.inj (h.symm.trans (hall b).1)
  · exact Except.ok.inj (h.symm.trans (hall a).2)

/-- Beside zero, a number is either not smaller than it or not close to one. -/
theorem compute_nilpotentMinimum_zero (hab : a = 0.0 ∨ b = 0.0)
    (h : nilpotentMinimum.compute a b = .ok d) : d = 0.0 := by
  refine compute_zero_of_signed (by simp [zeroNorms]) ?_ ?_ hab h
  · intro x hx
    simp [compute, least, hx, Float.not_lt_of_lt hx]
  · intro x hx
    have hidle : above x 1.0 = false := by simp [above, aboveWithin, Float.not_one_lt hx]
    simp [compute, Float.zero_add_of_neg hx, Float.add_zero_of_neg hx, hidle]

theorem compute_drasticProduct_zero (hab : a = 0.0 ∨ b = 0.0)
    (h : drasticProduct.compute a b = .ok d) : d = 0.0 := by
  refine compute_zero_of_signed (by simp [zeroNorms]) ?_ ?_ hab h
  · intro x hx
    simp [compute, least, hx, Float.not_lt_of_lt hx]
  · intro x hx
    simp [compute, greatest, hx, Float.not_lt_of_lt hx, not_near_one.2.2]

/-! ### The table -/

/-- The table is right. -/
theorem allows_forced (t : TNorm) {s u : Forced} (ha : s.Allows a) (hb : u.Allows b)
    (h : t.compute a b = .ok d) : (t.forced s u).Allows d := by
  have hproduct (ht : t ∈ [algebraicProduct, einsteinProduct, hamacherProduct])
      (hsu : s = .unknown ∨ u = .unknown) : d = nan := by
    rcases hsu with rfl | rfl
    · exact compute_product_nan ht (.inl ha) h
    · exact compute_product_nan ht (.inr hb) h
  cases t with
  | minimum =>
    simp only [forced]
    split
    next hs =>
      subst hs
      cases ha
      exact compute_minimum_nan h
    next => trivial
  | algebraicProduct | einsteinProduct | hamacherProduct =>
    simp only [forced]
    split
    next hsu => exact hproduct (by simp) hsu
    next => trivial
  | nilpotentMinimum =>
    simp only [forced]
    split
    next hsu =>
      rcases hsu with hs | hu
      · rcases ha.of_ne_free hs with ha | ha
        · exact compute_nilpotentMinimum_nan (.inl ha) h
        · exact compute_nilpotentMinimum_zero (.inl ha) h
      · rcases hb.of_ne_free hu with hb | hb
        · exact compute_nilpotentMinimum_nan (.inr hb) h
        · exact compute_nilpotentMinimum_zero (.inr hb) h
    next => trivial
  | drasticProduct =>
    simp only [forced]
    split
    next hsu =>
      rcases hsu with hs | rfl
      · rcases ha.of_ne_free hs with rfl | ha
        · exact compute_drasticProduct_nan h
        · exact compute_drasticProduct_zero (.inl ha) h
      · exact compute_drasticProduct_zero (.inr hb) h
    next => trivial
  | boundedDifference =>
    simp only [forced]
    split
    next hsu =>
      rcases hsu with rfl | rfl | ⟨rfl, rfl⟩
      · exact compute_boundedDifference_nan (.inl ha) h
      · exact compute_boundedDifference_nan (.inr hb) h
      · cases ha
        cases hb
        cases h
        show greatest (0.0 : Float) (0.0 + 0.0 - 1.0) = 0.0
        decide
    next => trivial

/-- Some degrees, those that are not forced as great as a norm can take them. -/
def sample (t : TNorm) : Forced → Float
  | .unknown => nan
  | .zero => 0.0
  | .free => if t = boundedDifference then inf else 1.0

/-- The table is as precise as it can be: at these degrees a norm has again one of them. -/
theorem compute_sample (t : TNorm) {s u : Forced} (hs : s = .zero → t.annuls = true)
    (hu : u = .zero → t.annuls = true) :
    t.compute (t.sample s) (t.sample u) = .ok (t.sample (t.forced s u)) := by
  cases t <;> cases s <;> cases u <;> first | decide +kernel | cases hs rfl | cases hu rfl

/-- Only norms that turn `nan` into zero force a zero. -/
theorem annuls_of_forced_eq_zero {t : TNorm} {s u : Forced} (h : t.forced s u = .zero) : t.annuls = true := by
  cases t <;> cases s <;> cases u <;> first | rfl | cases h

/-- Under a norm that keeps `nan`, what is forced on one operand is forced on the value. -/
theorem forced_ne_free {t : TNorm} (ht : t.keepsUnknown = true) {s u : Forced}
    (hs : s = .zero → t.annuls = true) (hu : u = .zero → t.annuls = true) (h : s ≠ .free ∨ u ≠ .free) :
    t.forced s u ≠ .free := by
  cases t <;> cases s <;> cases u <;> simp_all [keepsUnknown, annuls, forced]

end TNorm

/-! ## §2 Propositions -/

/-- A hedge other than the one that matches everything keeps `nan`. -/
theorem Hedge.apply_nan {h : Hedge} (hany : h ≠ .any) : h.apply (nan : Float) = .ok nan := by
  cases h with
  | any => exact absurd rfl hany
  | not | extremely | seldom | somewhat | very => decide

theorem Hedge.applyAll_nan {hs : List Hedge} (hany : .any ∉ hs) : applyAll hs (nan : Float) = .ok nan := by
  induction hs with
  | nil => rfl
  | cons h hs ih =>
    obtain ⟨hne, hany⟩ := not_or.1 (mt List.mem_cons.2 hany)
    rw [applyAll, ih hany, ok_bind, apply_nan (Ne.symm hne)]

/-- The proposition is about a curve of an input that takes part and was never set. -/
def Variables.isUnset (vs : Variables Float) (p : Proposition) : Bool :=
  !p.subject.isOutput &&
    match vs.input? p.subject.id, p.term with
    | some v, some t => v.enabled && isNaN v.value && (v.termById? t.id).any fun u => !u.isCrisp
    | _, _ => false

/-- Outputs do not matter for that. -/
@[simp] theorem Variables.isUnset_receive (vs : Variables Float) (t : Trail Float) (p : Proposition) :
    (vs.receive t).isUnset p = vs.isUnset p := by
  simp [isUnset]

/-- A curve has the degree `nan` at `nan`. -/
theorem Term.membership_nan {t : Term Float} (h : t.isCrisp = false) (around : Option (Surroundings Float)) :
    t.membership around nan = .ok nan := by
  unfold membership
  unfold isCrisp kind at h
  cases hbody : t.body with
  | shape s height => rfl
  | constant value => simp [hbody, TermKind.isCrisp] at h
  | linear coefficients => simp [hbody, TermKind.isCrisp] at h
  | formula f => simp [hbody, TermKind.isCrisp] at h

theorem Variables.degreeOf_of_isUnset {vs : Variables Float} {p : Proposition} (h : vs.isUnset p = true)
    (hany : .any ∉ p.hedges) : vs.degreeOf p = .ok nan := by
  obtain ⟨subject, hedges, term⟩ := p
  simp only [isUnset, Bool.and_eq_true, Bool.not_eq_true'] at h
  obtain ⟨hinput, h⟩ := h
  split at h
  next v t hv =>
    simp only [Bool.and_eq_true, Option.any_eq_true, Bool.not_eq_true'] at h
    obtain ⟨⟨henabled, hnan⟩, u, hu, hcurve⟩ := h
    have hmatches : Proposition.matchesAny ⟨subject, hedges, some t⟩ = false := by
      refine Bool.eq_false_iff.2 fun hmatches => hany ?_
      exact List.mem_of_getLast? (eq_of_beq hmatches)
    simp [degreeOf, isEnabled, reached, hinput, hv, henabled, hmatches, hu, Float.eq_nan hnan,
      Term.membership_nan hcurve, Hedge.applyAll_nan hany]
  next => cases h

/-! ## §3 Conditions -/

namespace Condition

/-- Propositions without the hedge that matches everything, joined by `and` only. -/
def IsConjunction : Condition → Prop
  | proposition p => .any ∉ p.hedges
  | join c left right => c = .and ∧ left.IsConjunction ∧ right.IsConjunction
  | negation _ => False

instance decidableIsConjunction : DecidablePred IsConjunction
  | proposition p => inferInstanceAs (Decidable (.any ∉ p.hedges))
  | join c left right =>
    have := decidableIsConjunction left
    have := decidableIsConjunction right
    inferInstanceAs (Decidable (c = .and ∧ left.IsConjunction ∧ right.IsConjunction))
  | negation _ => isFalse id

/-- What is forced on the degree of a conjunction when some of its propositions have the degree `nan`. -/
def forced (t : TNorm) (unset : Proposition → Bool) : Condition → Forced
  | proposition p => if unset p then .unknown else .free
  | join _ left right => t.forced (left.forced t unset) (right.forced t unset)
  | negation _ => .free

theorem isSome_head?_propositions (c : Condition) : c.propositions.head?.isSome = true := by
  induction c with
  | proposition p => rfl
  | join k left right ihl ihr => simp [propositions, List.head?_append, ihl]
  | negation operand ih => exact ih

variable {t : TNorm} {unset : Proposition → Bool} {c : Condition}

/-- The degree of a conjunction is one of those that are left. -/
theorem allows_forced (hc : c.IsConjunction) {disjunction : Option SNorm}
    {degreeOf : Proposition → Except Error Float}
    (hunset : ∀ p, unset p = true → .any ∉ p.hedges → degreeOf p = .ok nan) {d : Float}
    (h : c.degree (some t) disjunction degreeOf = .ok d) : (c.forced t unset).Allows d := by
  induction c generalizing d with
  | proposition p =>
    simp only [forced]
    split
    next hp =>
      have hnan := hunset p hp hc
      rw [degree, hnan] at h
      cases h
      rfl
    next => trivial
  | join k left right ihl ihr =>
    obtain ⟨rfl, hleft, hright⟩ := hc
    rw [degree] at h
    obtain ⟨a, ha, h⟩ := bind_eq_ok_iff.1 h
    obtain ⟨b, hb, h⟩ := bind_eq_ok_iff.1 h
    exact t.allows_forced (ihl hleft ha) (ihr hright hb) (liftM_eq_ok_iff.1 h)
  | negation operand => cases hc

/-- A zero is forced only by norms that turn `nan` into it. -/
theorem annuls_of_forced_eq_zero (h : c.forced t unset = .zero) : t.annuls = true := by
  cases c with
  | proposition p =>
    rw [forced] at h
    split at h <;> cases h
  | join k left right => exact TNorm.annuls_of_forced_eq_zero h
  | negation operand => cases h

/-- The propositions that are not forced can have degrees at which the conjunction has its sample. -/
theorem degree_sample (hc : c.IsConjunction) (disjunction : Option SNorm) :
    c.degree (some t) disjunction
        (fun p => .ok (t.sample (if unset p then .unknown else .free))) =
      .ok (t.sample (c.forced t unset)) := by
  induction c with
  | proposition p => rfl
  | join k left right ihl ihr =>
    obtain ⟨rfl, hleft, hright⟩ := hc
    rw [degree, ihl hleft, ihr hright]
    simp [joinDegrees, forced, TNorm.compute_sample t annuls_of_forced_eq_zero annuls_of_forced_eq_zero]
  | negation operand => cases hc

/-- Under a norm that keeps `nan`, one proposition is enough, wherever it stands. -/
theorem forced_ne_free (ht : t.keepsUnknown = true) (hc : c.IsConjunction)
    (h : ∃ p ∈ c.propositions, unset p = true) : c.forced t unset ≠ .free := by
  obtain ⟨p, hp, hunset⟩ := h
  induction c with
  | proposition q =>
    cases List.mem_singleton.1 hp
    simp [forced, hunset]
  | join k left right ihl ihr =>
    obtain ⟨rfl, hleft, hright⟩ := hc
    refine TNorm.forced_ne_free ht annuls_of_forced_eq_zero annuls_of_forced_eq_zero ?_
    rcases List.mem_append.1 hp with hp | hp
    · exact .inl (ihl hleft hp)
    · exact .inr (ihr hright hp)
  | negation operand => cases hc

/-- The minimum looks at the first proposition only. -/
theorem forced_minimum (hc : c.IsConjunction) :
    c.forced .minimum unset ≠ .free ↔ c.propositions.head?.any unset = true := by
  -- nothing is forced to be zero, and the first proposition of a tree is the first one on its left
  have hforced : c.forced .minimum unset = if c.propositions.head?.any unset then .unknown else .free := by
    induction c with
    | proposition p => rfl
    | join k left right ihl ihr =>
      obtain ⟨-, hleft, -⟩ := hc
      have hhead : (left.propositions ++ right.propositions).head? = left.propositions.head? := by
        rw [List.head?_append, Option.or_eq_left_of_isSome (left.isSome_head?_propositions)]
      simp only [forced, propositions, TNorm.forced, ihl hleft, hhead]
      split <;> rfl
    | negation operand => cases hc
  rw [hforced]
  split <;> simp_all

end Condition

/-! ## §4 Cycles -/

namespace Engine

/-- A rule does not fire when its degree is forced. Let its antecedent be a conjunction under some T-norm.

* When unset inputs force the degree, the rule fires under no activation method, and is not marked unless it
  was before and is not evaluated.
* They do when any of the propositions is about one of them and the norm keeps `nan`, and for the minimum
  exactly when the first proposition is.
* When they do not, some degrees of the other propositions make the degree positive. -/
theorem not_fires_of_unset {e : Engine Float} {i j : Nat} {b : RuleBlock Float} {r : Rule Float}
    {c : Condition} {t : TNorm} (hb : e.blocks[i]? = some b) (hr : b.rules[j]? = some r)
    (hantecedent : r.antecedent = some c) (hc : c.IsConjunction) (ht : b.conjunction = some t) :
    (c.forced t e.store.isUnset ≠ .free →
      ¬e.Fires i j ∧ (e.process.state.IsMarked i j → e.IsMarked i j ∧ ¬e.Evaluates i j)) ∧
    (t.keepsUnknown = true → (∃ p ∈ c.propositions, e.store.isUnset p = true) →
      c.forced t e.store.isUnset ≠ .free) ∧
    (t = .minimum → (c.forced t e.store.isUnset ≠ .free ↔
      c.propositions.head?.any e.store.isUnset = true)) ∧
    (c.forced t e.store.isUnset = .free → ∃ degreeOf : Proposition → Except Error Float,
      (∀ p, e.store.isUnset p = true → degreeOf p = .ok nan) ∧
        ∃ d, c.degree b.conjunction b.disjunction degreeOf = .ok d ∧ above d 0.0 = true) := by
  refine ⟨fun hforced => ?_, fun hkeeps h => Condition.forced_ne_free hkeeps hc h, ?_, fun hfree => ?_⟩
  · have hfires : ¬e.Fires i j := by
      refine not_fires_of_degree hb hr fun s d hd => ?_
      unfold Rule.weightedDegree at hd
      split at hd
      next =>
        obtain ⟨x, hx, hd⟩ := bind_eq_ok_iff.1 hd
        cases hd
        rw [Rule.antecedentDegree, hantecedent, ht] at hx
        have hunset : ∀ p, e.store.isUnset p = true → .any ∉ p.hedges →
            ((clearOutputs e.store).receive s).degreeOf p = .ok nan := by
          intro p hp hany
          refine Variables.degreeOf_of_isUnset ?_ hany
          rw [Variables.isUnset_receive]
          exact hp
        have hallowed := Condition.allows_forced hc hunset hx
        exact Float.above_mul_eq_false r.weight (hallowed.of_ne_free hforced)
      next => cases hd
    refine ⟨hfires, fun hmarked => ?_⟩
    exact ((e.isMarked_process i j).1 hmarked).resolve_left hfires
  · rintro rfl
    exact Condition.forced_minimum hc
  · refine ⟨fun p => .ok (t.sample (if e.store.isUnset p then .unknown else .free)), fun p hp => ?_,
      t.sample .free, ?_, ?_⟩
    · simp [hp, TNorm.sample]
    · rw [ht, Condition.degree_sample hc, hfree]
    · cases t <;> decide +kernel

/-- A proposition about the curve of an input. -/
def darkProposition (id : Nat) (name : String) : Proposition := ⟨⟨id, name, false⟩, [], some ⟨0, "DARK"⟩⟩

/-- The relay with two inputs that have a curve each, `a`, which was never set, and `b`, which is at the top
of its curve, and one rule on two propositions. -/
def halfSetRelay (t : TNorm) (first second : Proposition) : Engine Float :=
  let a : Variable Float :=
    { Variable.empty "a" 0.0 1.0 with terms := [⟨0, "DARK", .shape (.triangle 0.0 0.25 0.5) 1.0⟩] }
  { relay with
    store := { relay.store with inputs := [a, { a with id := 2, name := "b", value := 0.25 }], nextId := 3 }
    blocks := [⟨"first", true, some t, none, none, none,
      [⟨"", 1.0, true, "", some (.join .and (.proposition first) (.proposition second)), "",
        [relayProposition [] 0 "LOW"], 0.0, false⟩]⟩] }

/-- With the unset input first, the rule does not fire under the minimum; with the unset input second, it
does not under a product. -/
theorem not_fires_of_unset_halfSetRelay :
    ¬(halfSetRelay .minimum (darkProposition 0 "a") (darkProposition 2 "b")).Fires 0 0 ∧
      ¬(halfSetRelay .einsteinProduct (darkProposition 2 "b") (darkProposition 0 "a")).Fires 0 0 := by
  refine ⟨?_, ?_⟩
  · have hc : (Condition.join .and (.proposition (darkProposition 0 "a"))
        (.proposition (darkProposition 2 "b"))).IsConjunction := by decide
    obtain ⟨hsilent, -, hfirst, -⟩ := not_fires_of_unset
      (e := halfSetRelay .minimum (darkProposition 0 "a") (darkProposition 2 "b")) (i := 0) (j := 0)
      rfl rfl rfl hc rfl
    exact (hsilent ((hfirst rfl).2 (by decide +kernel))).1
  · have hc : (Condition.join .and (.proposition (darkProposition 2 "b"))
        (.proposition (darkProposition 0 "a"))).IsConjunction := by decide
    obtain ⟨hsilent, hanywhere, -, -⟩ := not_fires_of_unset
      (e := halfSetRelay .einsteinProduct (darkProposition 2 "b") (darkProposition 0 "a")) (i := 0) (j := 0)
      rfl rfl rfl hc rfl
    exact (hsilent (hanywhere rfl ⟨darkProposition 0 "a", by decide, by decide +kernel⟩)).1

/-- With the unset input second, the rule fires under the minimum, to the degree of the other input. -/
theorem triggered_unset_second :
    (halfSetRelay .minimum (darkProposition 2 "b") (darkProposition 0 "a")).process.state.blocks.map
      (fun b => b.rules.map fun r => (r.degree, r.triggered)) = [[(1.0, true)]] := by
  decide

end Engine

end FuzzyInference
