import FuzzyInference.Proofs.Faults.Formulas
import FuzzyInference.Proofs.Loading

/-!
# Faults of entries

What a document says is read value by value. A value that is none of those that are asked for is refused by an error
of the configuration, with two exceptions: a number that is not finite has no whole part, and a whole number can be
too large for a scalar or too long for a text. These faults escape.

The plan of this module:

* computations that configure something;
* texts that are made of values;
* numbers that values stand for.

## Main statements

* `Checked.ConfiguresUnless.bind`, `Checked.ConfiguresUnless.mapM`: computations in sequence
* `Value.configures_toScalar`, `Value.configures_toScalars`: scalars
* `Value.toInt_eq_error_iff`, `Value.truncated_eq_error_iff`: whole numbers
-/

namespace FuzzyInference

open Scalar

/-! ## §1 Computations that configure -/

namespace Checked

variable {β γ δ : Type}

/-- What refuses the computation is an error of the configuration, unless it is one of the faults of which `P` holds.
All of these refuse it. -/
structure ConfiguresUnless (x : Except Error β) (P : Fault → Prop) : Prop where
  fault : ∀ f, x = .error (.fault f) ↔ P f
  other : ∀ err, x = .error err → err.IsConfiguration ∨ ∃ f, err = .fault f

/-- One of the items faults, and those before it have values. -/
def FirstFaults (g : β → Except Error γ) (R : β → Fault → Prop) (xs : List β) (f : Fault) : Prop :=
  ∃ before x after, xs = before ++ x :: after ∧ (∀ y ∈ before, ∃ z, g y = .ok z) ∧ R x f

theorem FirstFaults.exists_mem {g : β → Except Error γ} {R : β → Fault → Prop} {xs : List β} {f : Fault}
    (h : FirstFaults g R xs f) : ∃ x ∈ xs, R x f := by
  obtain ⟨before, x, after, rfl, -, hx⟩ := h
  exact ⟨x, List.mem_append_right before List.mem_cons_self, hx⟩

namespace ConfiguresUnless

variable {x y : Except Error β} {P Q : Fault → Prop}

theorem congr (h : ConfiguresUnless x P) (hPQ : ∀ f, P f ↔ Q f) : ConfiguresUnless x Q :=
  ⟨fun f => (h.fault f).trans (hPQ f), h.other⟩

theorem ok (b : β) : ConfiguresUnless (.ok b) fun _ => False := ⟨by simp, by simp⟩

theorem refused (c : ConfigurationError) :
    ConfiguresUnless (.error (.configuration c) : Except Error β) fun _ => False := by
  refine ⟨by simp, fun err h => ?_⟩
  cases h
  exact .inl trivial

theorem faulted (g : Fault) : ConfiguresUnless (.error (.fault g) : Except Error β) fun f => f = g := by
  refine ⟨fun f => by simp [eq_comm], fun err h => ?_⟩
  cases h
  exact .inr ⟨g, rfl⟩

theorem liftM {z : Except Fault β} (h : ∀ f, z = .error f ↔ P f) :
    ConfiguresUnless (liftM z : Except Error β) P := by
  cases z with
  | ok b =>
    have hnone : ∀ f, ¬P f := fun f hf => nomatch (h f).2 hf
    exact (ok b).congr fun f => by simp [hnone]
  | error g => exact (faulted g).congr fun f => by simp [← h f, eq_comm]

/-- A refusal stays what it is in a longer computation. -/
theorem of_error {err : Error} (hx : ConfiguresUnless x P) (h : x = .error err) :
    ConfiguresUnless (.error err : Except Error γ) P := by
  subst h
  exact ⟨fun f => by rw [← hx.fault f, Except.error.injEq, Except.error.injEq], fun err' h => hx.other err' (by
    cases h
    rfl)⟩

/-- A computation that has a value does not fault. -/
theorem not_of_ok {b : β} (hx : ConfiguresUnless x P) (h : x = .ok b) (f : Fault) : ¬P f := by
  rw [← hx.fault f, h]
  nofun

/-- A sequence is refused like its first part, or like the rest where the first part has a value. -/
theorem bind {g : β → Except Error γ} {R : β → Fault → Prop} (hx : ConfiguresUnless x P)
    (hg : ∀ b, ConfiguresUnless (g b) (R b)) :
    ConfiguresUnless (x >>= g) fun f => P f ∨ ∃ b, x = .ok b ∧ R b f := by
  constructor
  · intro f
    rw [bind_eq_error_iff, hx.fault]
    exact or_congr_right (exists_congr fun b => and_congr_right fun _ => (hg b).fault f)
  · intro err h
    rcases bind_eq_error_iff.1 h with h | ⟨b, -, h⟩
    · exact hx.other err h
    · exact (hg b).other err h

theorem bind_ok {g : β → γ} (hx : ConfiguresUnless x P) : ConfiguresUnless (x >>= fun b => .ok (g b)) P :=
  (hx.bind fun b => ok (g b)).congr fun f => by simp

theorem map {g : β → γ} (hx : ConfiguresUnless x P) : ConfiguresUnless (g <$> x) P := by
  have hbind : g <$> x = x >>= fun b => .ok (g b) := by cases x <;> rfl
  rw [hbind]
  exact hx.bind_ok

/-- A text is made for an error of the configuration, and may fault itself. -/
theorem throwing {z : Except Fault γ} (h : ∀ f, z = .error f ↔ P f) (c : γ → ConfigurationError) :
    ConfiguresUnless (MonadLift.monadLift z >>= fun s => .error (.configuration (c s)) : Except Error β) P :=
  ((liftM h).bind fun s => refused (c s)).congr fun f => by simp

theorem ite {c : Prop} [Decidable c] (hx : ConfiguresUnless x P) (hy : ConfiguresUnless y Q) :
    ConfiguresUnless (if c then x else y) fun f => if c then P f else Q f := by
  by_cases h : c
  · simpa only [if_pos h] using hx
  · simpa only [if_neg h] using hy

/-- A list of computations is refused like the first one that is. -/
theorem mapM {g : β → Except Error γ} {R : β → Fault → Prop} (hg : ∀ x, ConfiguresUnless (g x) (R x)) (xs : List β) :
    ConfiguresUnless (xs.mapM g) (FirstFaults g R xs) := by
  constructor
  · intro f
    rw [mapM_eq_error_iff]
    constructor
    · rintro ⟨before, x, after, ys, hsplit, hys, hx⟩
      exact ⟨before, x, after, hsplit, exists_mapM_iff.1 ⟨ys, hys⟩, ((hg x).fault f).1 hx⟩
    · rintro ⟨before, x, after, hsplit, hys, hx⟩
      obtain ⟨ys, hys⟩ := exists_mapM_iff.2 hys
      exact ⟨before, x, after, ys, hsplit, hys, ((hg x).fault f).2 hx⟩
  · intro err h
    obtain ⟨before, x, after, ys, -, -, hx⟩ := (mapM_eq_error_iff g xs err).1 h
    exact (hg x).other err hx

/-- A state that takes over what items describe is refused like the first description that is. What a description
depends on stays as it is. -/
theorem foldlM {σ κ ι : Type} (add : σ → ι → σ) (key : σ → κ) {describe : κ → β → Except Error ι}
    {R : κ → β → Fault → Prop} (hadd : ∀ s i, key (add s i) = key s)
    (hdescribe : ∀ k x, ConfiguresUnless (describe k x) (R k x)) (xs : List β) (s : σ) :
    ConfiguresUnless (xs.foldlM (fun s x => add s <$> describe (key s) x) s)
      (FirstFaults (describe (key s)) (R (key s)) xs) := by
  -- both are refused at the same item: what has been added plays no part
  have hfold : ∀ (ys : List β) (u : σ), key u = key s →
      (∀ t, ys.foldlM (fun s x => add s <$> describe (key s) x) u = .ok t → key t = key s) ∧
      ((∃ t, ys.foldlM (fun s x => add s <$> describe (key s) x) u = .ok t) ↔
        ∀ y ∈ ys, ∃ z, describe (key s) y = .ok z) := by
    intro ys
    induction ys with
    | nil =>
      intro u hu
      refine ⟨fun t ht => ?_, by simp⟩
      cases ht
      exact hu
    | cons y ys ih =>
      intro u hu
      simp only [List.foldlM_cons, hu, List.forall_mem_cons]
      cases hy : describe (key s) y with
      | error err => simp
      | ok z =>
        obtain ⟨hkey, hall⟩ := ih (add u z) ((hadd u z).trans hu)
        simp only [map_ok, ok_bind]
        exact ⟨hkey, by rw [hall]; simp⟩
  have hstep : ∀ (err : Error), xs.foldlM (fun s x => add s <$> describe (key s) x) s = .error err ↔
      ∃ before x after, xs = before ++ x :: after ∧ (∀ y ∈ before, ∃ z, describe (key s) y = .ok z) ∧
        describe (key s) x = .error err := by
    intro err
    rw [foldlM_eq_error_iff]
    constructor
    · rintro ⟨before, x, after, t, hsplit, ht, hx⟩
      obtain ⟨hkey, hall⟩ := hfold before s rfl
      rw [map_eq_error_iff, hkey t ht] at hx
      exact ⟨before, x, after, hsplit, hall.1 ⟨t, ht⟩, hx⟩
    · rintro ⟨before, x, after, hsplit, hbefore, hx⟩
      obtain ⟨hkey, hall⟩ := hfold before s rfl
      obtain ⟨t, ht⟩ := hall.2 hbefore
      refine ⟨before, x, after, t, hsplit, ht, ?_⟩
      rw [map_eq_error_iff, hkey t ht]
      exact hx
  constructor
  · intro f
    rw [hstep]
    simp only [FirstFaults, (hdescribe _ _).fault]
  · intro err h
    obtain ⟨before, x, after, -, -, hx⟩ := (hstep err).1 h
    exact (hdescribe _ x).other err hx

/-- What escapes from a computation that configures is one of its faults. -/
theorem escapes_iff (h : ConfiguresUnless x P) (err : Error) :
    (x = .error err ∧ ¬err.IsConfiguration) ↔ ∃ f, err = .fault f ∧ P f := by
  constructor
  · rintro ⟨herr, hnot⟩
    obtain ⟨f, rfl⟩ := (h.other err herr).resolve_left hnot
    exact ⟨f, rfl, (h.fault f).1 herr⟩
  · rintro ⟨f, rfl, hf⟩
    exact ⟨(h.fault f).2 hf, not_false⟩

end ConfiguresUnless

end Checked

open Checked

namespace Value

/-! ## §2 Texts -/

/-- A whole number in the value is too long to be written. -/
def TextFaults (v : Value) (f : Fault) : Prop := v.isWritable = false ∧ f = .digits

/-- The value of an entry cannot be written. -/
def EntryFaults (t : Value) (key : String) (f : Fault) : Prop := ∃ v, t.entry? key = some v ∧ v.TextFaults f

theorem written_eq_error_iff {v : Value} {f : Fault} : v.written = .error f ↔ v.TextFaults f := by
  unfold written Decimal.writtenWhen TextFaults
  cases v.isWritable <;> simp [eq_comm]

@[simp] theorem not_textFaults_text (s : String) (f : Fault) : ¬(Value.text s).TextFaults f := fun h => nomatch h.1

/-- What counts as absent can be written. -/
theorem isPresent_of_textFaults {v : Value} {f : Fault} (h : v.TextFaults f) : v.isPresent = true := by
  obtain ⟨h, -⟩ := h
  cases v with
  | int n =>
    rw [isPresent, bne_iff_ne]
    rintro rfl
    have hpos : ∀ k, 0 < Decimal.tenTo k := fun k => Nat.pow_pos (by decide)
    rw [isWritable, Decimal.isWritable, Int.natAbs_zero, decide_eq_true (hpos _)] at h
    cases h
  | list items =>
    cases items with
    | nil => cases h
    | cons v items => rfl
  | table entries =>
    cases entries with
    | nil => cases h
    | cons p entries => rfl
  | none | bool | float | text | moment => cases h

theorem nameText_eq_error_iff {v : Value} {f : Fault} : v.nameText = .error f ↔ v.TextFaults f := by
  unfold nameText
  cases hpresent : v.isPresent with
  | true => rw [if_pos rfl, written_eq_error_iff]
  | false =>
    rw [if_neg Bool.false_ne_true]
    refine ⟨nofun, fun h => ?_⟩
    rw [isPresent_of_textFaults h] at hpresent
    cases hpresent

theorem entryName_eq_error_iff {t : Value} {key : String} {f : Fault} :
    t.entryName key = .error f ↔ t.EntryFaults key f := by
  unfold entryName EntryFaults
  rw [nameText_eq_error_iff]
  cases t.entry? key with
  | none => simp [TextFaults, isWritable]
  | some v => simp

/-- Words fault like any of them. -/
theorem writtenWords_eq_error_iff {vs : List Value} {f : Fault} :
    writtenWords vs = .error f ↔ ∃ v ∈ vs, v.TextFaults f := by
  rw [writtenWords, map_eq_error_iff]
  constructor
  · intro h
    obtain ⟨before, v, after, -, rfl, -, hv⟩ := (mapM_eq_error_iff _ _ _).1 h
    exact ⟨v, by simp, written_eq_error_iff.1 hv⟩
  · rintro ⟨v, hv, hfault⟩
    cases hall : vs.mapM written with
    | ok ss =>
      obtain ⟨s, -, hs⟩ := exists_mem_of_mapM hall hv
      rw [written_eq_error_iff.2 hfault] at hs
      cases hs
    | error g =>
      -- there is only one fault of texts
      obtain ⟨before, u, after, -, -, -, hu⟩ := (mapM_eq_error_iff _ _ _).1 hall
      rw [(written_eq_error_iff.1 hu).2, hfault.2]

/-! ## §3 Numbers -/

/-- The number has no whole part. -/
def WholeFaults (x : Float) (f : Fault) : Prop :=
  Scalar.isNaN x = true ∧ f = .notWhole ∨ Scalar.isInf x = true ∧ f = .overflow

/-- The value stands for no scalar: it is a whole number that is too large, or holds one that is too long to be
shown. -/
def ScalarFaults : Value → Fault → Prop
  | .int n, f => Scalar.isInf (Decimal.floatOfInt n) = true ∧ f = .overflow
  | v, f => v.TextFaults f

/-- One of the items stands for no scalar. The words of a text do not fault. -/
def ScalarsFault : Value → Fault → Prop
  | .text _, _ => False
  | v, f => FirstFaults toScalar ScalarFaults v.items f

/-- The value is no whole number. -/
def IntFaults : Value → Fault → Prop
  | .bool _, _ | .int _, _ => False
  | .float x, f => WholeFaults x f
  | .text s, f => Decimal.readInt? s = Option.none ∧ f = .notWhole
  | _, f => f = .notWhole

theorem configures_scalarOfText (s : String) : ConfiguresUnless (scalarOfText s) fun _ => False := by
  unfold scalarOfText
  dsimp only
  split
  · exact .ok _
  · exact .refused _

theorem configures_toScalar (v : Value) : ConfiguresUnless v.toScalar v.ScalarFaults := by
  have htext : ConfiguresUnless (MonadLift.monadLift v.written >>= fun s => scalarOfText s) v.TextFaults :=
    ((ConfiguresUnless.liftM fun f => written_eq_error_iff).bind configures_scalarOfText).congr fun f => by simp
  cases v with
  | bool b => exact (ConfiguresUnless.refused _).congr fun f => by simp [ScalarFaults, TextFaults, isWritable]
  | float x => exact (ConfiguresUnless.ok _).congr fun f => by simp [ScalarFaults, TextFaults, isWritable]
  | int n =>
    have hinf : (Decimal.floatOfInt n).isInf = Scalar.isInf (Decimal.floatOfInt n) := (Float.isInf_eq _).symm
    unfold toScalar
    dsimp only
    rw [hinf]
    cases hlarge : Scalar.isInf (Decimal.floatOfInt n) with
    | true =>
      exact (ConfiguresUnless.faulted .overflow).congr fun f => by simp [ScalarFaults, hlarge]
    | false => exact (ConfiguresUnless.ok _).congr fun f => by simp [ScalarFaults, hlarge]
  | none | text | moment | list | table => exact htext

theorem configures_toScalars (v : Value) : ConfiguresUnless v.toScalars v.ScalarsFault := by
  cases v with
  | text s =>
    refine (ConfiguresUnless.mapM configures_scalarOfText (Text.words s)).congr fun f => ?_
    simp [ScalarsFault, FirstFaults]
  | none | bool | int | float | moment | list | table => exact .mapM configures_toScalar _

/-- Finite numbers have whole parts, and the others have none. -/
theorem not_wholeFaults {x : Float} (h : Scalar.isFinite x = true) (f : Fault) : ¬WholeFaults x f := by
  rw [Scalar.isFinite, Bool.not_eq_true', Bool.or_eq_false_iff] at h
  rintro (⟨hnan, -⟩ | ⟨hinf, -⟩)
  · rw [h.1] at hnan
    cases hnan
  · rw [h.2] at hinf
    cases hinf

theorem isFinite_of_not_wholeFaults {x : Float} (h : ∀ f, ¬WholeFaults x f) : Scalar.isFinite x = true := by
  rw [Scalar.isFinite, Bool.not_eq_true', Bool.or_eq_false_iff]
  exact ⟨Bool.eq_false_iff.2 fun hnan => h .notWhole (.inl ⟨hnan, rfl⟩),
    Bool.eq_false_iff.2 fun hinf => h .overflow (.inr ⟨hinf, rfl⟩)⟩

theorem wholeFaults_nan {f : Fault} : WholeFaults nan f ↔ f = .notWhole := by
  have hparts : Scalar.isNaN (nan : Float) = true ∧ Scalar.isInf (nan : Float) = false := by decide
  simp [WholeFaults, hparts.1, hparts.2]

theorem wholeFaults_inf {x : Float} (h : x = inf ∨ x = -inf) {f : Fault} : WholeFaults x f ↔ f = .overflow := by
  have hparts : Scalar.isNaN x = false ∧ Scalar.isInf x = true := by rcases h with rfl | rfl <;> decide
  simp [WholeFaults, hparts.1, hparts.2]

/-- A function that cuts finite numbers, and refuses the others by the fault that fits, has the faults of whole
parts. -/
theorem eq_error_iff_of_cut {β : Type} (cut : Float → Except Fault β)
    (hfinite : ∀ x, Scalar.isFinite x = true → ∃ b, cut x = .ok b) (hnan : cut nan = .error .notWhole)
    (hinf : cut inf = .error .overflow ∧ cut (-inf) = .error .overflow) {x : Float} {f : Fault} :
    cut x = .error f ↔ WholeFaults x f := by
  cases hx : Scalar.isFinite x with
  | true =>
    obtain ⟨b, hb⟩ := hfinite x hx
    rw [hb]
    exact iff_of_false nofun (not_wholeFaults hx f)
  | false =>
    rcases Float.cases_of_not_isFinite hx with rfl | rfl | rfl
    · rw [hnan, wholeFaults_nan, Except.error.injEq, eq_comm]
    · rw [hinf.1, wholeFaults_inf (.inl rfl), Except.error.injEq, eq_comm]
    · rw [hinf.2, wholeFaults_inf (.inr rfl), Except.error.injEq, eq_comm]

theorem truncated_eq_error_iff {x : Float} {f : Fault} : truncated x = .error f ↔ WholeFaults x f := by
  refine eq_error_iff_of_cut truncated (fun y hy => ?_) (by decide) ⟨by decide, by decide⟩
  obtain ⟨negative, m, e, hparts⟩ := Decimal.exists_of_isFinite hy
  unfold truncated Decimal.truncate?
  rw [hparts]
  exact ⟨_, rfl⟩

theorem toInt_eq_error_iff {v : Value} {f : Fault} : v.toInt = .error f ↔ v.IntFaults f := by
  cases v with
  | float x => exact truncated_eq_error_iff
  | text s =>
    unfold toInt IntFaults
    dsimp only
    cases Decimal.readInt? s <;> simp [eq_comm]
  | bool b => simp [toInt, IntFaults]
  | int n => simp [toInt, IntFaults]
  | none | moment | list | table => simp [toInt, IntFaults, eq_comm]

end Value

/-- The name cannot be written. -/
def Name.TextFaults (n : Name) (f : Fault) : Prop := n.toValue.TextFaults f

theorem Name.written_eq_error_iff {n : Name} {f : Fault} : n.written = .error f ↔ n.TextFaults f :=
  Value.written_eq_error_iff

/-- What is refused under a name faults where the name cannot be written. -/
theorem Checked.ConfiguresUnless.naming {β : Type} {n : Name} {x : Except Error β}
    (hok : ∀ s, n.written = .ok s → ∃ c, x = .error (.configuration c))
    (herror : ∀ g, n.written = .error g → x = .error (.fault g)) : ConfiguresUnless x n.TextFaults := by
  cases hwritten : n.written with
  | ok s =>
    obtain ⟨c, rfl⟩ := hok s hwritten
    refine (ConfiguresUnless.refused c).congr fun f => iff_of_false not_false fun h => ?_
    rw [Name.written_eq_error_iff.2 h] at hwritten
    cases hwritten
  | error g =>
    rw [herror g hwritten]
    exact (ConfiguresUnless.faulted g).congr fun f => by
      rw [← Name.written_eq_error_iff, hwritten, Except.error.injEq, eq_comm]

end FuzzyInference
