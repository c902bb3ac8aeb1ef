import FuzzyInference.Proofs.Decimal.Fixed
import FuzzyInference.Proofs.Exporting.Membership
import FuzzyInference.Proofs.Faults.Sections
import FuzzyInference.Proofs.Reconfiguring

/-!
# Terms written and configured again

The parameters of a term are written as a text and configure another term of its kind. Three ways of writing have to
fit three ways of reading. A shape has a fixed number of parameters, so that one more is a height; the points of a
discrete shape come in pairs, so that a value left over is one; and a formula is its own text. A height near one is not
written, and is read as one. So nothing is lost when the decimals are enough for every number, and when a height that is
left out is exactly one.

The plan of this module:

* texts of numbers that are alike;
* numbers read of a text;
* shapes configured with and without a height;
* terms that were configured;
* terms configured with the parameters of another one.

## Main statements

* `Term.parameters_eq`: terms whose bodies are alike are written in the same way
* `Value.exists_toScalars_textAll`: numbers that survive their texts are read of them
* `Term.configure_parameters`: terms configured with the parameters of another one
-/

namespace FuzzyInference

open Scalar Checked

/-! ## §1 Texts of numbers that are alike -/

section Texts

variable {x y : Float} {xs ys : List Float}

theorem Float.Alike.text_eq (h : Float.Alike x y) (decimals : ℕ) :
    Scalar.text decimals x = Scalar.text decimals y := by
  have hzeros : Scalar.text decimals (-0.0) = Scalar.text decimals 0.0 := by
    have hpositive : Decimal.Binary.ofFloat 0.0 = .finite false 0 (-1074) := by decide
    have hnegative : Decimal.Binary.ofFloat (-0.0) = .finite true 0 (-1074) := by decide
    refine Decimal.fixedText_eq hpositive hnegative rfl fun hunits => absurd ?_ hunits
    exact Decimal.unitsOf_eq (by simp) (by simp)
  rcases h.eq_or_zeros with rfl | ⟨rfl | rfl, rfl | rfl⟩
  · rfl
  · rfl
  · exact hzeros.symm
  · exact hzeros
  · rfl

theorem AllAlike.symm (h : AllAlike xs ys) : AllAlike ys xs := (List.Forall₂.imp (fun _ _ => .symm) h).flip

/-- What is alike to a list with a last number has a last number that is alike. -/
theorem AllAlike.exists_concat (h : AllAlike xs (ys ++ [y])) :
    ∃ xs' x, xs = xs' ++ [x] ∧ AllAlike xs' ys ∧ Float.Alike x y := by
  have hinit := List.forall₂_take_append _ _ _ h
  have hlast := List.forall₂_drop_append _ _ _ h
  generalize hrest : xs.drop ys.length = rest at hlast
  obtain _ | ⟨hx, ⟨⟩⟩ := hlast
  exact ⟨_, _, by rw [← hrest, List.take_append_drop], hinit, hx⟩

theorem textAll_eq (h : AllAlike xs ys) (decimals : ℕ) : textAll decimals xs = textAll decimals ys := by
  have hmap : xs.map (Scalar.text decimals) = ys.map (Scalar.text decimals) := by
    induction h with
    | nil => rfl
    | cons hfirst _ ih => rw [List.map_cons, List.map_cons, hfirst.text_eq, ih]
  rw [textAll, textAll, hmap]

end Texts

namespace Term

variable {t t' : Term Float}

theorem scalars_alike (h : t.body.Alike t'.body) : AllAlike t.scalars t'.scalars := by
  obtain ⟨id, name, body⟩ := t
  obtain ⟨id', name', body'⟩ := t'
  cases h with
  | @shape s s' height height' hs hheight =>
    simp only [scalars]
    rw [hheight.near_eq (.refl 1.0)]
    refine List.rel_append hs.2 ?_
    cases near height' 1.0 with
    | true => exact .nil
    | false => exact .cons hheight .nil
  | constant h => exact .cons h .nil
  | linear h => exact h
  | formula => exact .nil

/-- Terms whose bodies are alike are written in the same way. -/
theorem parameters_eq (h : t.body.Alike t'.body) (decimals : ℕ) : t.parameters decimals = t'.parameters decimals := by
  have hscalars := textAll_eq (scalars_alike h) decimals
  obtain ⟨id, name, body⟩ := t
  obtain ⟨id', name', body'⟩ := t'
  cases h with
  | formula => rfl
  | _ => exact hscalars

end Term

/-! ## §2 Numbers read of a text -/

/-- The number is read of its text, up to the sign of zero. -/
def Float.Survives (decimals : ℕ) (x : Float) : Prop :=
  ∃ y, Scalar.read? (Scalar.text decimals x) = some y ∧ Float.Alike y x

theorem Value.scalarOfText_text {decimals : ℕ} {x y : Float}
    (h : Scalar.read? (Scalar.text decimals x) = some y) : scalarOfText (Scalar.text decimals x) = .ok y := by
  have hword : Text.IsWord (Scalar.text decimals x) := (Decimal.isNumberText_fixedText x decimals).isWord
  rw [scalarOfText, hword.trim, h]

/-- Numbers that survive their texts are read of them. -/
theorem Value.exists_toScalars_textAll {decimals : ℕ} {xs : List Float} (h : ∀ x ∈ xs, Float.Survives decimals x) :
    ∃ ys, (Value.text (textAll decimals xs)).toScalars = .ok ys ∧ AllAlike ys xs := by
  have hword : ∀ x, Text.IsWord (Scalar.text decimals x) := fun x => (Decimal.isNumberText_fixedText x decimals).isWord
  have hwords : Text.words (textAll decimals xs) = xs.map (Scalar.text decimals) := by
    rw [textAll, ← Text.unwords, Text.words_unwords, List.flatMap_map, List.map_eq_flatMap]
    exact List.flatMap_congr fun x _ => (hword x).words
  rw [toScalars, hwords]
  -- the words are read one by one
  clear hwords
  induction xs with
  | nil => exact ⟨[], rfl, .nil⟩
  | cons x xs ih =>
    obtain ⟨y, hy, halike⟩ := h x List.mem_cons_self
    obtain ⟨ys, hys, hall⟩ := ih fun z hz => h z (List.mem_cons_of_mem _ hz)
    refine ⟨y :: ys, ?_, .cons halike hall⟩
    rw [List.map_cons, List.mapM_cons, scalarOfText_text hy, ok_bind, hys]
    rfl

/-! ## §3 Shapes configured with and without a height -/

namespace Shape

variable {s : Shape Float} {vs : List Float}

theorem PointsAlike.values {points points' : List (Float × Float)} (h : PointsAlike points points') :
    AllAlike (discrete points).values (discrete points').values := by
  induction h with
  | nil => exact .nil
  | cons hp _ ih => exact .cons hp.1 (.cons hp.2 ih)

theorem kind_of_ofValues? {k : ShapeKind} (hk : k ≠ .discrete) (h : ofValues? k vs = some s) :
    s.kind = k ∧ s.values = vs := by
  unfold ofValues? at h
  split at h <;> first | exact absurd rfl hk | (cases h; exact ⟨rfl, rfl⟩) | cases h

/-- A shape has as many parameters as its kind takes. -/
theorem length_values (hk : s.kind ≠ .discrete) : s.values.length = s.kind.arity := by
  cases s with
  | discrete points => exact absurd rfl hk
  | _ => rfl

/-- Parameters that are alike give a shape that is alike. -/
theorem exists_ofValues? (h : AllAlike vs s.values) : ∃ s', ofValues? s.kind vs = some s' ∧ s'.Alike s := by
  by_cases hk : s.kind = .discrete
  · cases s with
    | discrete points =>
      have hpoints := pointsAlike_pairs (AllAlike.symm h)
      exact ⟨_, rfl, rfl, AllAlike.symm hpoints.values⟩
    | _ => cases hk
  · have hlength : vs.length = s.kind.arity := h.length_eq.trans (length_values hk)
    obtain ⟨s', hs'⟩ := Option.isSome_iff_exists.1 ((isSome_ofValues?_iff hk vs).2 hlength)
    obtain ⟨hkind, rfl⟩ := kind_of_ofValues? hk hs'
    exact ⟨s', hs', hkind, h⟩

/-- A discrete shape with points has two values for each of them. -/
theorem length_points {points : List (Float × Float)} (hs : (discrete points).isBlank = false)
    (h : AllAlike vs (discrete points).values) : vs.length % 2 = 0 ∧ vs ≠ [] := by
  have heven : ∀ ps : List (Float × Float), (discrete ps).values.length = 2 * ps.length := by
    intro ps
    simp [values, Nat.mul_comm]
  rw [← List.length_pos_iff, h.length_eq, heven]
  cases points with
  | nil => cases hs
  | cons p points => simp

end Shape

namespace Term

variable {s : Shape Float} {vs : List Float}

/-- Without a height the shape is of height one. -/
theorem configureShape_values (name : Name) (hs : s.isBlank = false) (h : AllAlike vs s.values) :
    ∃ s', configureShape s.kind name vs = .ok (.shape s' 1.0) ∧ s'.Alike s := by
  obtain ⟨s', hs', halike⟩ := Shape.exists_ofValues? h
  refine ⟨s', ?_, halike⟩
  by_cases hk : s.kind = .discrete
  · cases s with
    | discrete points =>
      obtain ⟨heven, hne⟩ := Shape.length_points hs h
      cases hs'
      simp [configureShape, Shape.kind, heven, hne]
    | _ => cases hk
  · unfold configureShape
    split
    · exact absurd ‹_› hk
    · rw [hs']

/-- One more parameter is the height. -/
theorem configureShape_values_append (name : Name) (hs : s.isBlank = false) (h : AllAlike vs s.values)
    (height : Float) : ∃ s', configureShape s.kind name (vs ++ [height]) = .ok (.shape s' height) ∧ s'.Alike s := by
  obtain ⟨s', hs', halike⟩ := Shape.exists_ofValues? h
  refine ⟨s', ?_, halike⟩
  by_cases hk : s.kind = .discrete
  · cases s with
    | discrete points =>
      obtain ⟨heven, hne⟩ := Shape.length_points hs h
      cases hs'
      have hodd : (vs.length + 1) % 2 = 1 := by omega
      simp [configureShape, Shape.kind, hodd, hne]
    | _ => cases hk
  · -- with the height there is one value more than the kind takes
    have hlong : ¬(Shape.ofValues? s.kind (vs ++ [height])).isSome = true := by
      rw [Shape.isSome_ofValues?_iff hk, List.length_append, h.length_eq, Shape.length_values hk]
      exact Nat.succ_ne_self _
    unfold configureShape
    split
    · exact absurd ‹_› hk
    · rw [Option.not_isSome_iff_eq_none.1 hlong, List.dropLast_concat, hs', List.getLastD_concat]

end Term

/-! ## §4 Terms that were configured -/

/-- What a configured term has: a discrete shape its points, and a formula the expression of its text. -/
def Body.IsComplete : Body Float → Prop
  | .shape s _ => s.isBlank = false
  | .formula f => ∃ root, Formula.parse f.formula = .ok root ∧ f.root = some root
  | .constant _ | .linear _ => True

namespace Term

variable {t t₀ : Term Float} {parameters : Value}

theorem isComplete_of_configureShape {k : ShapeKind} {name : Name} {vs : List Float} {body : Body Float}
    (h : configureShape k name vs = .ok body) : body.IsComplete := by
  have hthrow : ∀ c : String → ConfigurationError,
      (MonadLift.monadLift name.written >>= fun s => .error (.configuration (c s)) : Except Error (Body Float)) ≠
        .ok body := by
    intro c hc
    obtain ⟨_, -, hc⟩ := bind_eq_ok_iff.1 hc
    cases hc
  unfold configureShape at h
  split at h
  · dsimp only at h
    obtain ⟨coordinates, hcoordinates⟩ : ∃ coordinates, coordinates =
      if vs.length % 2 = 1 then vs.dropLast else vs := ⟨_, rfl⟩
    -- an odd number of values loses its last one, so that what is left comes in pairs
    have heven : coordinates.length % 2 = 0 := by
      rw [hcoordinates]
      split
      · rw [List.length_dropLast]
        omega
      · omega
    rw [← hcoordinates] at h
    match coordinates, heven with
    | [], _ => exact absurd h (hthrow _)
    | x :: y :: rest, _ =>
      cases h
      rfl
  · rename_i hk
    have hshape : ∀ {vs s}, Shape.ofValues? k vs = some s → s.isBlank = false := fun hs =>
      Shape.isBlank_of_kind ((Shape.kind_of_ofValues? hk hs).1 ▸ hk)
    split at h
    · cases h
      exact hshape ‹_›
    · split at h
      · cases h
        exact hshape ‹_›
      · exact absurd h (hthrow _)

theorem isComplete_of_configure (h : t₀.configure parameters = (t, .ok ())) : t.body.IsComplete := by
  unfold configure at h
  cases hbody : t₀.body with
  | formula f =>
    rw [hbody] at h
    dsimp only at h
    split at h
    · unfold loadFormula at h
      split at h
      · cases h
        exact ⟨_, ‹_›, rfl⟩
      · cases h
    · cases h
  | shape s height =>
    rw [hbody] at h
    dsimp only at h
    split at h
    · cases h
      obtain ⟨values, -, hvalues⟩ := bind_eq_ok_iff.1 ‹_›
      exact isComplete_of_configureShape hvalues
    · cases h
  | constant value =>
    rw [hbody] at h
    dsimp only at h
    split at h
    · cases h
      obtain ⟨values, -, hvalues⟩ := bind_eq_ok_iff.1 ‹_›
      split at hvalues
      · cases hvalues
        trivial
      · obtain ⟨_, -, hvalues⟩ := bind_eq_ok_iff.1 hvalues
        cases hvalues
    · cases h
  | linear coefficients =>
    rw [hbody] at h
    dsimp only at h
    split at h
    · cases h
      obtain ⟨values, -, hvalues⟩ := bind_eq_ok_iff.1 ‹_›
      cases hvalues
      trivial
    · cases h

end Term

/-! ## §5 Terms configured with the parameters of another one -/

namespace Term

variable {t t₁ : Term Float} {decimals : ℕ}

theorem configure_shape {s : Shape Float} {height : Float} {parameters : Value} {vs : List Float} {body : Body Float}
    (ht : t.body = .shape s height) (hvs : parameters.toScalars = .ok vs)
    (hbody : configureShape s.kind t.name vs = .ok body) : t.configure parameters = ({ t with body }, .ok ()) := by
  simp only [configure, ht, hvs, ok_bind, hbody]

/-- A shape is configured again by parameters and a height that are alike, unless the height is one and left out. -/
theorem exists_configureShape {s : Shape Float} {height : Float} {vs : List Float} (name : Name)
    (hs : s.isBlank = false) (hheight : height = 1.0 ∨ near height 1.0 = false)
    (h : AllAlike vs (s.values ++ if near height 1.0 then [] else [height])) :
    ∃ body, configureShape s.kind name vs = .ok body ∧ body.Alike (.shape s height) ∧ body.extra = [] := by
  cases hnear : near height 1.0 with
  | true =>
    rw [hnear, if_pos rfl, List.append_nil] at h
    -- the height is left out, so that it is one
    obtain rfl := hheight.resolve_right (by simp [hnear])
    obtain ⟨s', hs', halike⟩ := configureShape_values name hs h
    exact ⟨_, hs', .shape halike (.refl 1.0), rfl⟩
  | false =>
    rw [hnear, if_neg Bool.false_ne_true] at h
    obtain ⟨values, last, rfl, hvalues, hlast⟩ := h.exists_concat
    obtain ⟨s', hs', halike⟩ := configureShape_values_append name hs hvalues last
    exact ⟨_, hs', .shape halike hlast, rfl⟩

/-- The parameters of a term configure a term of its kind. -/
theorem exists_configure (ht : t.body.IsComplete) (hkind : t₁.kind = t.kind)
    (hsurvives : ∀ x ∈ t.scalars, Float.Survives decimals x)
    (hheight : ∀ s height, t.body = .shape s height → height = 1.0 ∨ near height 1.0 = false) :
    ∃ body, t₁.configure (.text (t.parameters decimals)) = ({ t₁ with body }, .ok ()) ∧ body.Alike t.body ∧
      body.extra = t₁.body.extra := by
  obtain ⟨values, hvalues, halike⟩ := Value.exists_toScalars_textAll hsurvives
  obtain ⟨id, name, body⟩ := t
  obtain ⟨id₁, name₁, body₁⟩ := t₁
  cases body with
  | shape s height =>
    cases body₁ with
    | shape s₁ height₁ =>
      have hs₁ : s₁.kind = s.kind := TermKind.shape.inj hkind
      obtain ⟨body, hbody, hbodyAlike, hextra⟩ := exists_configureShape name₁ ht (hheight s height rfl) halike
      exact ⟨body, configure_shape rfl hvalues (hs₁ ▸ hbody), hbodyAlike, hextra⟩
    | _ => cases hkind
  | constant value =>
    cases body₁ with
    | constant value₁ =>
      obtain _ | ⟨hvalue, ⟨⟩⟩ := halike
      exact ⟨.constant _, by simp only [configure, parameters, hvalues, ok_bind]; rfl, .constant hvalue, rfl⟩
    | _ => cases hkind
  | linear coefficients =>
    cases body₁ with
    | linear coefficients₁ =>
      exact ⟨.linear values, by simp only [configure, parameters, hvalues, ok_bind]; rfl, .linear halike, rfl⟩
    | _ => cases hkind
  | formula f =>
    obtain ⟨text, root, extra⟩ := f
    obtain ⟨root', hroot, rfl⟩ := ht
    cases body₁ with
    | formula f₁ =>
      refine ⟨.formula ⟨text, some root', f₁.extra⟩, ?_, .formula, rfl⟩
      exact (configure_of_formulaText rfl rfl).trans (loadFormula_of_ok hroot)
    | _ => cases hkind

/-- The parameters of a configured term, written with enough decimals for each of them, configure every term of its
kind, a new one for example: parameters and height are then alike and shown in the same way with any number of decimals,
and a formula has the same expression. Terms of one name, with the same values for names of their own, have the same
degrees up to the sign of zero, or the same errors, in all surroundings. -/
theorem configure_parameters (t₀ t₁ : Term Float) (parameters : Value) (ht : t₀.configure parameters = (t, .ok ()))
    (hkind : t₁.kind = t.kind) (hsurvives : ∀ x ∈ t.scalars, Float.Survives decimals x)
    (hheight : ∀ s height, t.body = .shape s height → height = 1.0 ∨ near height 1.0 = false) :
    ∃ t', t₁.configure (.text (t.parameters decimals)) = (t', .ok ()) ∧ t'.body.Alike t.body ∧
      (∀ decimals, t'.parameters decimals = t.parameters decimals) ∧
      (t₁.name = t.name → t₁.body.extra = t.body.extra → ∀ around x,
        SameResult (t'.membership around x) (t.membership around x)) := by
  obtain ⟨body, hconfigure, halike, hextra⟩ :=
    exists_configure (isComplete_of_configure ht) hkind hsurvives hheight
  refine ⟨{ t₁ with body }, hconfigure, halike, parameters_eq halike, fun hname hown => ?_⟩
  exact membership_alike (t := { t₁ with body }) halike hname (hextra.trans hown)

/-- A ramp of half height that starts at the negative zero. -/
def ascent : Term Float := ⟨0, "ASCENT", .shape (.ramp (-0.0) 1.0) 0.5⟩

/-- One decimal is enough for it; only the sign of its start is lost. -/
theorem configure_parameters_ascent :
    ascent.parameters 1 = "0.0 1.0 0.5" ∧
    ∃ t', (blank (.shape .ramp) "ASCENT").configure (.text (ascent.parameters 1)) = (t', .ok ()) ∧
      t'.body.Alike ascent.body ∧ t'.parameters 1 = ascent.parameters 1 ∧
      ∀ around x, SameResult (t'.membership around x) (ascent.membership around x) := by
  have hread : (blank (.shape .ramp) "ASCENT").configure (.list [.float (-0.0), .float 1.0, .float 0.5]) =
      (ascent, .ok ()) := rfl
  have hsurvives : ∀ x ∈ ascent.scalars, Float.Survives 1 x := by
    have hscalars : ascent.scalars = [-0.0, 1.0, 0.5] := by decide +kernel
    rw [hscalars]
    simp only [List.forall_mem_cons, List.not_mem_nil, false_implies, implies_true, and_true]
    exact ⟨⟨0.0, by decide +kernel, .inl (by decide +kernel)⟩, ⟨1.0, by decide +kernel, .inl (by decide +kernel)⟩,
      ⟨0.5, by decide +kernel, .inl (by decide +kernel)⟩⟩
  have hheight : ∀ s height, ascent.body = .shape s height → height = 1.0 ∨ near height 1.0 = false := by
    intro s height h
    cases h
    exact .inr (by decide +kernel)
  obtain ⟨t', hconfigure, halike, htext, hdegree⟩ :=
    configure_parameters _ (blank (.shape .ramp) "ASCENT") _ hread rfl hsurvives hheight
  exact ⟨by decide +kernel, t', hconfigure, halike, htext 1, hdegree rfl rfl⟩

end Term

end FuzzyInference
