import FuzzyInference.Proofs.Choice
import Mathlib.Data.Prod.Lex
import Mathlib.Order.WithBot

/-!
# Methods that rank rules

Two activation methods sort the rules of positive degree, one of them by the opposites of their degrees, and
let a part of the sorted list fire that is cut off at a number. This module says which rules these are: on
positive floating-point numbers the comparison is a linear order, which opposites reverse, sorting keeps rules
of equal degrees in the order of their declaration, and a number that is negative does not ask for no rule but
leaves out so many rules at the end.

The plan of this module:

* opposites of floating-point numbers, which compare the other way round;
* ranks of positive numbers, by exponent and mantissa;
* sorting rules by a rank, and cutting the sorted list;
* blocks, of which the highest or the lowest degrees fire.

## Main statements

* `Float.neg_lt_neg_iff`: opposites
* `Float.lt_iff_rank_lt`: ranks
* `Activation.pairwise_sortByKey`: sorting keeps the order of equal ranks
* `RuleBlock.run_fires_ranked`: blocks
-/

namespace FuzzyInference

open Float.Model UnpackedFloat
open Scalar Checked

/-! ## §1 Opposites -/

/-- The other sign in the bits of a number is the other sign of the number. -/
theorem unpack_packComponents_neg (s : Sign) (e : BitVec Format.binary64.exponentBits)
    (m : BitVec Format.binary64.mantissaBitsWithoutImplicit) :
    UnpackedFloat.unpack .binary64 (packComponents .binary64 (-s) e m) =
      (UnpackedFloat.unpack .binary64 (packComponents .binary64 s e m)).neg := by
  have hsign : ∀ s : Sign, Sign.ofBitVec s.toBitVec = s := by
    intro s
    cases s <;> rfl
  unfold UnpackedFloat.unpack
  simp only [unpackExponent_packComponents, unpackMantissa_packComponents, unpackSign_packComponents, hsign]
  split_ifs <;> rfl

/-- The form into which a number is packed depends on its magnitude only. -/
theorem unpack_pack_neg (u : UnpackedFloat) : (pack u.neg).unpack = (pack u).unpack.neg := by
  cases u with
  | notANumber => rfl
  | infinity s => cases s <;> rfl
  | zero s => cases s <;> rfl
  | finite s m e hm =>
    change UnpackedFloat.unpack .binary64 (UnpackedFloat.pack .binary64 (.finite (-s) m e hm)) =
      (UnpackedFloat.unpack .binary64 (UnpackedFloat.pack .binary64 (.finite s m e hm))).neg
    unfold UnpackedFloat.pack
    dsimp only
    split_ifs
    · rw [unpack_packedInfinity, unpack_packedInfinity]
      rfl
    · exact unpack_packComponents_neg s _ _
    · exact unpack_packComponents_neg s _ _

/-- Opposites compare the other way round. -/
theorem compare_neg (a b : UnpackedFloat) : a.neg.compare b.neg = b.compare a := by
  rw [compare_swap a b]
  cases a with
  | notANumber => cases b <;> rfl
  | infinity s =>
    cases b with
    | notANumber => rfl
    | infinity t => cases s <;> cases t <;> rfl
    | zero t => cases s <;> rfl
    | finite t n f hn => cases s <;> rfl
  | zero s =>
    cases b with
    | notANumber => rfl
    | infinity t => cases t <;> rfl
    | zero t => rfl
    | finite t n f hn => cases t <;> rfl
  | finite s m e hm =>
    cases b with
    | notANumber => rfl
    | infinity t => cases t <;> rfl
    | zero t => cases s <;> rfl
    | finite t n f hn =>
      cases s with
      | positive => cases t <;> rfl
      | negative =>
        cases t with
        | positive => rfl
        -- two negative numbers already compare by the swapped magnitudes
        | negative => exact congrArg some Ordering.swap_swap.symm

namespace Float

variable {x y : Float}

theorem unpack_neg (x : Float) : (-x).toModel.unpack = x.toModel.unpack.neg := by
  have hneg : -x = Float.ofModel (Float.Model.pack x.toModel.unpack.neg) := rfl
  have hself : Float.Model.pack x.toModel.unpack = x.toModel := by
    have h := congrArg Float.toModel (ofModel_pack_unpack x)
    exact h
  rw [hneg]
  change (Float.Model.pack x.toModel.unpack.neg).unpack = _
  rw [unpack_pack_neg, hself]

/-- Of two opposites, the one of the greater number is less. -/
theorem neg_lt_neg_iff : -x < -y ↔ y < x := by
  rw [lt_iff, lt_iff, unpack_neg, unpack_neg, compare_neg]

/-! ## §2 Ranks -/

theorem pos_of_above (h : above x 0.0 = true) : 0.0 < x := (above_zero_iff.1 h).1

/-- The exponent and the mantissa of a number that is finite, and more than any of these otherwise. -/
def rank (x : Float) : WithTop (ℤ ×ₗ ℕ) :=
  match x.toModel.unpack with
  | .finite _ m e _ => ((toLex (e, m) : ℤ ×ₗ ℕ) : WithTop (ℤ ×ₗ ℕ))
  | _ => ⊤

/-- Positive numbers compare by their ranks. -/
theorem lt_iff_rank_lt (hx : 0.0 < x) (hy : 0.0 < y) : x < y ↔ rank x < rank y := by
  rw [lt_iff]
  unfold rank
  obtain hx | ⟨m, e, hm, hx⟩ := unpack_of_pos hx
  · obtain hy | ⟨n, f, hn, hy⟩ := unpack_of_pos hy
    · rw [hx, hy]
      exact ⟨nofun, fun h => absurd h (lt_irrefl _)⟩
    · rw [hx, hy]
      exact ⟨nofun, fun h => absurd h not_top_lt⟩
  · obtain hy | ⟨n, f, hn, hy⟩ := unpack_of_pos hy
    · rw [hx, hy]
      exact ⟨fun _ => WithTop.coe_lt_top _, fun _ => rfl⟩
    · rw [hx, hy]
      dsimp only
      rw [WithTop.coe_lt_coe, Prod.Lex.toLex_lt_toLex]
      change some ((compare e f).then (compare m n)) = some .lt ↔ _
      rw [Option.some_inj, Ordering.then_eq_lt, compare_lt_iff_lt, compare_lt_iff_lt, compare_eq_iff_eq]

/-- Positive numbers are determined by their ranks. -/
theorem eq_of_rank_eq (hx : 0.0 < x) (hy : 0.0 < y) (h : rank x = rank y) : x = y := by
  apply eq_of_unpack
  unfold rank at h
  obtain hx | ⟨m, e, hm, hx⟩ := unpack_of_pos hx
  · obtain hy | ⟨n, f, hn, hy⟩ := unpack_of_pos hy
    · rw [hx, hy]
    · rw [hx, hy] at h
      cases h
  · obtain hy | ⟨n, f, hn, hy⟩ := unpack_of_pos hy
    · rw [hx, hy] at h
      cases h
    · rw [hx, hy] at h
      cases toLex.injective (WithTop.coe_injective h)
      rw [hx, hy]

end Float

/-! ## §3 Sorting -/

namespace Activation

section Sorting

variable {α β : Type} [LinearOrder β] {f : α × Nat → β}

/-- The rule of the lesser rank comes first, and of equal ranks the one that is declared first. -/
def Precedes (f : α × Nat → β) (p q : α × Nat) : Prop := f p < f q ∨ f p = f q ∧ p.2 < q.2

theorem Precedes.trans {p q r : α × Nat} (hpq : Precedes f p q) (hqr : Precedes f q r) : Precedes f p r := by
  obtain hpq | ⟨hpq, hp⟩ := hpq
  · obtain hqr | ⟨hqr, -⟩ := hqr
    · exact .inl (hpq.trans hqr)
    · exact .inl (hpq.trans_eq hqr)
  · obtain hqr | ⟨hqr, hq⟩ := hqr
    · exact .inl (hpq.trans_lt hqr)
    · exact .inr ⟨hpq.trans hqr, hp.trans hq⟩

variable [Scalar α] {key : α × Nat → α}

/-- A rule that is declared before those of a list is inserted before those of its own rank. -/
theorem pairwise_insertByKey {p : α × Nat} {ps : List (α × Nat)}
    (hkey : ∀ q ∈ ps, key q < key p ↔ f q < f p) (hdeclared : ∀ q ∈ ps, p.2 < q.2)
    (h : ps.Pairwise (Precedes f)) : (insertByKey key p ps).Pairwise (Precedes f) := by
  induction ps with
  | nil => exact List.pairwise_singleton _ _
  | cons q ps ih =>
    obtain ⟨hq, hps⟩ := List.pairwise_cons.1 h
    unfold insertByKey
    split
    next hlt =>
      have hqp : f q < f p := (hkey q List.mem_cons_self).1 hlt
      have hrest := ih (fun z hz => hkey z (List.mem_cons_of_mem _ hz))
        (fun z hz => hdeclared z (List.mem_cons_of_mem _ hz)) hps
      refine List.pairwise_cons.2 ⟨fun z hz => ?_, hrest⟩
      obtain rfl | hz := List.mem_cons.1 ((insertByKey_perm key p ps).subset hz)
      · exact .inl hqp
      · exact hq z hz
    next hnot =>
      have hle : f p ≤ f q := not_lt.1 (mt (hkey q List.mem_cons_self).2 hnot)
      have hpq : Precedes f p q := hle.lt_or_eq.imp_right fun heq => ⟨heq, hdeclared q List.mem_cons_self⟩
      refine List.pairwise_cons.2 ⟨fun z hz => ?_, h⟩
      obtain rfl | hz := List.mem_cons.1 hz
      · exact hpq
      · exact hpq.trans (hq z hz)

/-- Sorting puts the rules in the order of their ranks, and keeps the order of those of equal ranks. -/
theorem pairwise_sortByKey {ps : List (α × Nat)} (hkey : ∀ p ∈ ps, ∀ q ∈ ps, key p < key q ↔ f p < f q)
    (h : IsAscending ps) : (sortByKey key ps).Pairwise (Precedes f) := by
  induction ps with
  | nil => exact List.Pairwise.nil
  | cons p ps ih =>
    obtain ⟨hp, hps⟩ := List.pairwise_cons.1 h
    have hsub : ∀ q ∈ sortByKey key ps, q ∈ ps := fun q hq => (sortByKey_perm key ps).subset hq
    -- rules are inserted from the last one on, so that those of the sorted list are declared later
    apply pairwise_insertByKey
    · intro q hq
      exact hkey q (List.mem_cons_of_mem _ (hsub q hq)) p List.mem_cons_self
    · intro q hq
      exact hp q (hsub q hq)
    · exact ih (fun q hq r hr => hkey q (List.mem_cons_of_mem _ hq) r (List.mem_cons_of_mem _ hr)) hps

end Sorting

/-! ## §4 Ranked rules -/

section Ranked

variable {α : Type}

/-- The degree of a rule comes before that of another one, or both are the same and the rule is declared
first. -/
def Outranks (ahead : α → α → Prop) (p q : α × Nat) : Prop := ahead p.1 q.1 ∨ p.1 = q.1 ∧ p.2 < q.2

/-- How many items a cut at a number leaves. -/
theorem length_takeSlice (count : Int) (ps : List (α × Nat)) :
    (0 ≤ count → (takeSlice count ps).length = min count.toNat ps.length) ∧
      (count < 0 → (takeSlice count ps).length = ps.length - count.natAbs) := by
  unfold takeSlice Position.sliceEnd Position.insertionIndex
  rw [List.length_take]
  constructor
  · intro hcount
    rw [if_neg (not_lt.2 hcount)]
    dsimp only
    omega
  · intro hcount
    rw [if_pos hcount]
    dsimp only
    omega

/-- Whatever precedes in a list that is in order, precedes what is cut off. -/
theorem rel_of_mem_takeSlice {count : Int} {R : α × Nat → α × Nat → Prop} {ps : List (α × Nat)}
    (h : ps.Pairwise R) {p q : α × Nat} (hp : p ∈ takeSlice count ps) (hq : q ∈ ps)
    (hnot : q ∉ takeSlice count ps) : R p q := by
  unfold takeSlice at hp hnot
  generalize Position.sliceEnd ps.length count = n at hp hnot
  rw [← List.take_append_drop n ps] at h hq
  obtain hq | hq := List.mem_append.1 hq
  · exact absurd hq hnot
  · exact (List.pairwise_append.1 h).2.2 p hp q hq

variable [Scalar α]

/-- The number of rules of positive degree. -/
def positives (ds : List (α × Nat)) : Nat := ds.countP fun p => above p.1 0.0

/-- So many of the rules of positive degree that outrank all others, in the order of their ranks. A negative
number leaves out so many of them, from the lowest rank on. -/
structure IsRanked (ahead : α → α → Prop) (count : Int) (ds ps : List (α × Nat)) : Prop where
  positive : ∀ p ∈ ps, p ∈ ds ∧ above p.1 0.0 = true
  counted : 0 ≤ count → ps.length = min count.toNat (positives ds)
  cut : count < 0 → ps.length = positives ds - count.natAbs
  ordered : ps.Pairwise (Outranks ahead)
  best : ∀ p ∈ ps, ∀ q ∈ ds, above q.1 0.0 = true → q ∉ ps → Outranks ahead p q

/-- Cutting the sorted list leaves ranked rules, if the keys say which degree comes before, and positive degrees are
determined by ranks that say the same. -/
theorem isRanked_takeSlice {β : Type} [LinearOrder β] {f : α × Nat → β} {key : α × Nat → α}
    {ahead : α → α → Prop} (count : Int) {ds : List (α × Nat)} (h : IsAscending ds)
    (hkey : ∀ p q, key p < key q ↔ ahead p.1 q.1)
    (hrank : ∀ p q, above p.1 0.0 = true → above q.1 0.0 = true → (ahead p.1 q.1 ↔ f p < f q))
    (hinj : ∀ p q, above p.1 0.0 = true → above q.1 0.0 = true → f p = f q → p.1 = q.1) :
    IsRanked ahead count ds (takeSlice count (sortByKey key (ds.filter fires))) := by
  have hpositive : ∀ p ∈ ds.filter fires, above p.1 0.0 = true := fun p hp => (List.mem_filter.1 hp).2
  have hperm : (sortByKey key (ds.filter fires)).Perm (ds.filter fires) := sortByKey_perm key _
  have hmem : ∀ p, p ∈ sortByKey key (ds.filter fires) ↔ p ∈ ds ∧ above p.1 0.0 = true := fun p =>
    hperm.mem_iff.trans List.mem_filter
  have hlength : (sortByKey key (ds.filter fires)).length = positives ds :=
    hperm.length_eq.trans List.countP_eq_length_filter.symm
  have hsorted : (sortByKey key (ds.filter fires)).Pairwise (Outranks ahead) := by
    have hprecedes : (sortByKey key (ds.filter fires)).Pairwise (Precedes f) := pairwise_sortByKey
      (fun p hp q hq => (hkey p q).trans (hrank p q (hpositive p hp) (hpositive q hq))) (h.filter fires)
    refine hprecedes.imp_of_mem fun {p q} hp hq hpq => ?_
    obtain ⟨-, hp⟩ := (hmem p).1 hp
    obtain ⟨-, hq⟩ := (hmem q).1 hq
    exact hpq.imp (hrank p q hp hq).2 (And.imp_left (hinj p q hp hq))
  obtain ⟨hcounted, hcut⟩ := length_takeSlice count (sortByKey key (ds.filter fires))
  rw [hlength] at hcounted hcut
  exact {
    positive := fun p hp => (hmem p).1 (List.mem_of_mem_take hp)
    counted := hcounted
    cut := hcut
    ordered := hsorted.sublist (List.take_sublist _ _)
    best := fun p hp q hq habove hnot => rel_of_mem_takeSlice hsorted hp ((hmem q).2 ⟨hq, habove⟩) hnot }

end Ranked

variable {ds : List (Float × Nat)}

/-- What is cut off a sorted list of positive degrees fires. -/
theorem filter_fires_takeSlice {count : Int} {key : Float × Nat → Float} :
    (takeSlice count (sortByKey key (ds.filter fires))).filter fires =
      takeSlice count (sortByKey key (ds.filter fires)) := by
  rw [List.filter_eq_self]
  intro p hp
  exact (List.mem_filter.1 (mem_of_mem_takeSlice_sortByKey hp)).2

/-- Degrees are ranked from the highest one down. -/
theorem isRanked_highest (count : Int) (h : IsAscending ds) :
    IsRanked (fun c d => d < c) count ds (((highest count).select ds).filter fires) := by
  have hselect : (highest count).select ds = takeSlice count (sortByKey (fun p => -p.1) (ds.filter fires)) := rfl
  rw [hselect, filter_fires_takeSlice]
  -- the higher degree has the lesser rank
  refine isRanked_takeSlice (f := fun p => OrderDual.toDual (Float.rank p.1)) count h ?_ ?_ ?_
  · exact fun p q => Float.neg_lt_neg_iff
  · exact fun p q hp hq => Float.lt_iff_rank_lt (Float.pos_of_above hq) (Float.pos_of_above hp)
  · intro p q hp hq heq
    exact Float.eq_of_rank_eq (Float.pos_of_above hp) (Float.pos_of_above hq) (OrderDual.toDual_inj.1 heq)

/-- Degrees are ranked from the lowest positive one up. -/
theorem isRanked_lowest (count : Int) (h : IsAscending ds) :
    IsRanked (fun c d => c < d) count ds (((lowest count).select ds).filter fires) := by
  have hselect : (lowest count).select ds = takeSlice count (sortByKey (fun p => p.1) (ds.filter fires)) := rfl
  rw [hselect, filter_fires_takeSlice]
  refine isRanked_takeSlice (f := fun p => Float.rank p.1) count h (fun p q => Iff.rfl) ?_ ?_
  · exact fun p q hp hq => Float.lt_iff_rank_lt (Float.pos_of_above hp) (Float.pos_of_above hq)
  · exact fun p q hp hq heq => Float.eq_of_rank_eq (Float.pos_of_above hp) (Float.pos_of_above hq) heq

end Activation

/-! ## §5 Blocks -/

namespace RuleBlock

/-- Exactly the ranked rules fire when a block of the degrees `ds` is run to its end, and the run fails exactly if
adding what one of them concludes fails. -/
def FiresRanked (vs : Variables Float) (b : RuleBlock Float) (ahead : Float → Float → Prop) (count : Int)
    (ds : List (Float × Nat)) : Prop :=
  ∃ ps, Activation.IsRanked ahead count ds ps ∧
    (∀ vs' b', (b.run vs).value = .ok (vs', b') → b.FiresExactly vs ds ps vs' b') ∧
    ∀ e, (b.run vs).value = .error e ↔ b.allAdditions vs ps = .error e

/-- Once all degrees are known, the rules that fire are those that the method selects. -/
theorem firesRanked_of_fired {vs : Variables Float} {b : RuleBlock Float} {ahead : Float → Float → Prop}
    {count : Int} {ds : List (Float × Nat)} (h : b.degrees vs = .ok ds)
    (hfired : Activation.IsRanked ahead count ds (b.fired ds)) : b.FiresRanked vs ahead count ds := by
  refine ⟨b.fired ds, hfired, fun vs' b' hvalue => ?_, fun e => ?_⟩
  · obtain ⟨ds', hds', hexactly⟩ := firesExactly_run hvalue
    cases h.symm.trans hds'
    exact hexactly
  · rw [value_run, h, ok_bind]
    cases b.allAdditions vs (b.fired ds) with
    | ok t => exact ⟨nofun, nofun⟩
    | error e' => rw [error_bind, Except.error.injEq, Except.error.injEq]

/-- A method that asks for the highest or the lowest degrees lets so many rules of positive degree fire as it
asks for, or all if these are fewer. They are those that come first by their degrees, earlier rules before
later ones of the same degree, and fire in this order. A negative number does not ask for no rule: all but so
many fire. -/
theorem run_fires_ranked {vs : Variables Float} {b : RuleBlock Float} {ds : List (Float × Nat)}
    (h : b.degrees vs = .ok ds) (count : Int) :
    (b.method = .highest count → b.FiresRanked vs (fun c d => d < c) count ds) ∧
      (b.method = .lowest count → b.FiresRanked vs (fun c d => c < d) count ds) := by
  have hascending : Activation.IsAscending ds := List.pairwise_map.1 (pairwise_degreesFrom h)
  constructor
  · intro hmethod
    apply firesRanked_of_fired h
    unfold fired
    rw [hmethod]
    exact Activation.isRanked_highest count hascending
  · intro hmethod
    apply firesRanked_of_fired h
    unfold fired
    rw [hmethod]
    exact Activation.isRanked_lowest count hascending

/-- Of four rules of positive degree, the two lowest ones fire if two are asked for, and the three highest ones
if the number is `-1`. -/
theorem run_fires_ranked_weighed :
    (∃ ds vs' b', (weighedBlock (.lowest 2) [0.25, 0.75, 0.5, nan, 0.25]).degrees Engine.relay.store = .ok ds ∧
      ((weighedBlock (.lowest 2) [0.25, 0.75, 0.5, nan, 0.25]).run Engine.relay.store).value = .ok (vs', b') ∧
      b'.rules.map Rule.triggered = [true, false, false, false, true] ∧
      (weighedBlock (.lowest 2) [0.25, 0.75, 0.5, nan, 0.25]).FiresRanked Engine.relay.store
        (fun c d => c < d) 2 ds) ∧
    ∃ ds vs' b', (weighedBlock (.highest (-1)) [0.25, 0.75, 0.5, nan, 0.25]).degrees Engine.relay.store = .ok ds ∧
      ((weighedBlock (.highest (-1)) [0.25, 0.75, 0.5, nan, 0.25]).run Engine.relay.store).value =
        .ok (vs', b') ∧
      b'.rules.map Rule.triggered = [true, true, true, false, false] ∧
      (weighedBlock (.highest (-1)) [0.25, 0.75, 0.5, nan, 0.25]).FiresRanked Engine.relay.store
        (fun c d => d < c) (-1) ds := by
  constructor
  · have hdone : ((weighedBlock (.lowest 2) [0.25, 0.75, 0.5, nan, 0.25]).run Engine.relay.store).error =
        none := by decide +kernel
    have hvalue := Outcome.value_of_error_eq_none hdone
    obtain ⟨ds, hds, -⟩ := firesExactly_run hvalue
    exact ⟨ds, _, _, hds, hvalue, by decide +kernel, (run_fires_ranked hds 2).2 rfl⟩
  · have hdone : ((weighedBlock (.highest (-1)) [0.25, 0.75, 0.5, nan, 0.25]).run Engine.relay.store).error =
        none := by decide +kernel
    have hvalue := Outcome.value_of_error_eq_none hdone
    obtain ⟨ds, hds, -⟩ := firesExactly_run hvalue
    exact ⟨ds, _, _, hds, hvalue, by decide +kernel, (run_fires_ranked hds (-1)).1 rfl⟩

end RuleBlock

end FuzzyInference
