import FuzzyInference.Proofs.Decimal.Digits
import FuzzyInference.Proofs.Words
import Mathlib.Algebra.Order.Field.Power
import Mathlib.Data.Bool.AllAny
import Mathlib.Tactic.FieldSimp
import Mathlib.Tactic.Ring

/-!
# Numbers in text

Whatever layout a number is written in, its text is a sign and a *numeral*: some digits, a point before more
of them or none, and an exponent or none. A numeral has an exact value. The readers of numbers take numerals
apart again, and read the floating-point number that is nearest to the value.

The plan of this module:

* numerals and their values;
* the layouts write numerals;
* the parts of numerals are read;
* the characters of texts of numbers;
* texts of numbers are read.

## Main statements

* `Layout.exists_numeral`: a layout writes a numeral with the value of the digits
* `Numeral.readFloat?_eq`, `readFloat?_write`: the number that is read of a numeral and of a text in a layout
* `isNumberText_fixedText`, `isNumberText_significantText`: texts of numbers are words
* `readFloat?_eq_none`: characters that no number has
-/

namespace FuzzyInference.Decimal

open Text

/-! ## §1 Numerals -/

/-- Some of the ten basic digits. -/
structure IsDigits (ds : List Char) : Prop where
  ne_nil : ds ≠ []
  basic : ∀ c ∈ ds, isBasicDigit c = true

theorem isDigits_zero : IsDigits ['0'] := ⟨by simp, by simp [isBasicDigit]⟩

theorem isDigits_toDigits (n : Nat) : IsDigits (Nat.toDigits 10 n) :=
  ⟨Nat.toDigits_ne_nil, isBasicDigit_of_mem_toDigits⟩

/-- Zeros may stand before digits. -/
theorem IsDigits.padded {ds : List Char} (h : IsDigits ds) (k : Nat) : IsDigits (List.replicate k '0' ++ ds) := by
  refine ⟨by simp [h.ne_nil], ?_⟩
  intro c hc
  exact (List.mem_append.1 hc).elim (isBasicDigit_of_mem_replicate c) (h.basic c)

/-- An unsigned number in text: digits, more digits behind a point where there are any, and an exponent unless
it is missing. -/
structure Numeral where
  whole : List Char
  fraction : List Char
  exponent : Option Int
  whole_isDigits : IsDigits whole
  fraction_basic : ∀ c ∈ fraction, isBasicDigit c = true

namespace Numeral

/-- The digits behind the point, with the point. -/
def pointPart (n : Numeral) : List Char := if n.fraction.isEmpty then [] else '.' :: n.fraction

def exponentPart (n : Numeral) : List Char :=
  match n.exponent with
  | none => []
  | some x => Layout.exponentPart x

def chars (n : Numeral) : List Char := n.whole ++ (n.pointPart ++ n.exponentPart)

/-- The digits as a whole number. -/
def digits (n : Numeral) : Nat := valueOfDigits (n.whole ++ n.fraction)

/-- The exponent of the last digit. -/
def lastExponent (n : Numeral) : Int := n.exponent.getD 0 - n.fraction.length

def value (n : Numeral) : ℚ := n.digits * 10 ^ n.lastExponent

/-- Zeros at the end do not change the value. -/
theorem value_eq {n : Numeral} {v j : Nat} {k : Int} (hdigits : n.digits = v * 10 ^ j)
    (hexponent : n.lastExponent = k - j) : n.value = v * 10 ^ k := by
  have hsum : (10 : ℚ) ^ k = 10 ^ (j : Int) * 10 ^ (k - j) := by
    rw [← zpow_add₀ (by norm_num)]
    congr 1
    ring
  rw [value, hdigits, hexponent, hsum, Nat.cast_mul, Nat.cast_pow, zpow_natCast, Nat.cast_ofNat, mul_assoc]

end Numeral

/-! ## §2 Layouts -/

/-- The value of digits of which the first has the exponent `x`. -/
def leadingValue (ds : List Char) (x : Int) : ℚ := valueOfDigits ds * 10 ^ (x + 1 - ds.length)

namespace Layout

/-- Whole numbers are marked with a decimal or not at all. -/
def IsPlain (l : Layout) : Prop := l.wholeMark = [] ∨ l.wholeMark = ['.', '0']

variable {ds : List Char}

/-- Numbers below one start with zeros. -/
theorem exists_numeral_below (hds : IsDigits ds) {x : Int} (hx : x < 0) :
    ∃ n : Numeral, n.chars = '0' :: '.' :: List.replicate (-x - 1).toNat '0' ++ ds ∧
      n.value = leadingValue ds x := by
  refine ⟨⟨['0'], List.replicate (-x - 1).toNat '0' ++ ds, none, isDigits_zero, (hds.padded _).basic⟩, ?_, ?_⟩
  · simp [Numeral.chars, Numeral.pointPart, Numeral.exponentPart, hds.ne_nil]
  · refine Numeral.value_eq (j := 0) ?_ ?_
    · have hzeros := valueOfDigits_zeros_append hds.basic ((-x - 1).toNat + 1)
      rw [List.replicate_succ, List.cons_append] at hzeros
      exact hzeros.trans (Nat.mul_one _).symm
    · simp only [Numeral.lastExponent, Option.getD_none, List.length_append, List.length_replicate]
      omega

/-- Zeros stand where a whole number has no more digits. -/
theorem exists_numeral_whole {l : Layout} (hl : l.IsPlain) (hds : IsDigits ds) {x : Int} (hx : 0 ≤ x)
    (hlength : ds.length ≤ x.toNat + 1) :
    ∃ n : Numeral, n.chars = ds ++ List.replicate (x.toNat + 1 - ds.length) '0' ++ l.wholeMark ∧
      n.value = leadingValue ds x := by
  have hwhole : IsDigits (ds ++ List.replicate (x.toNat + 1 - ds.length) '0') := by
    refine ⟨by simp [hds.ne_nil], ?_⟩
    intro c hc
    exact (List.mem_append.1 hc).elim (hds.basic c) (isBasicDigit_of_mem_replicate c)
  rcases hl with hmark | hmark
  · refine ⟨⟨ds ++ List.replicate (x.toNat + 1 - ds.length) '0', [], none, hwhole, nofun⟩, ?_, ?_⟩
    · simp [Numeral.chars, Numeral.pointPart, Numeral.exponentPart, hmark]
    · refine Numeral.value_eq (j := x.toNat + 1 - ds.length) ?_ ?_
      · rw [Numeral.digits, List.append_nil, valueOfDigits_append_zeros hds.basic]
      · simp only [Numeral.lastExponent, Option.getD_none, List.length_nil]
        omega
  · have hzero : ∀ c ∈ ['0'], isBasicDigit c = true := by simp [isBasicDigit]
    refine ⟨⟨ds ++ List.replicate (x.toNat + 1 - ds.length) '0', ['0'], none, hwhole, hzero⟩, ?_, ?_⟩
    · simp [Numeral.chars, Numeral.pointPart, Numeral.exponentPart, hmark]
    · refine Numeral.value_eq (j := x.toNat + 1 - ds.length + 1) ?_ ?_
      · have hzeros := valueOfDigits_append_zeros hds.basic (x.toNat + 1 - ds.length + 1)
        rwa [List.replicate_succ', ← List.append_assoc] at hzeros
      · simp only [Numeral.lastExponent, Option.getD_none, List.length_singleton]
        omega

/-- The point stands among the digits. -/
theorem exists_numeral_between (hds : IsDigits ds) {x : Int} (hx : 0 ≤ x) (hlength : x.toNat + 1 < ds.length) :
    ∃ n : Numeral, n.chars = ds.take (x.toNat + 1) ++ '.' :: ds.drop (x.toNat + 1) ∧
      n.value = leadingValue ds x := by
  have hwhole : IsDigits (ds.take (x.toNat + 1)) :=
    ⟨by simp [hds.ne_nil], fun c hc => hds.basic c (List.mem_of_mem_take hc)⟩
  have hfraction : ∀ c ∈ ds.drop (x.toNat + 1), isBasicDigit c = true :=
    fun c hc => hds.basic c (List.mem_of_mem_drop hc)
  have hne : ds.drop (x.toNat + 1) ≠ [] := by simpa using hlength
  refine ⟨⟨ds.take (x.toNat + 1), ds.drop (x.toNat + 1), none, hwhole, hfraction⟩, ?_, ?_⟩
  · simp [Numeral.chars, Numeral.pointPart, Numeral.exponentPart, hlength]
  · refine Numeral.value_eq (j := 0) ?_ ?_
    · simp [Numeral.digits]
    · simp only [Numeral.lastExponent, Option.getD_none, List.length_drop]
      omega

theorem exists_numeral_positional {l : Layout} (hl : l.IsPlain) (hds : IsDigits ds) (x : Int) :
    ∃ n : Numeral, n.chars = l.positional ds x ∧ n.value = leadingValue ds x := by
  unfold positional
  split
  · rename_i hx
    exact exists_numeral_below hds hx
  · rename_i hx
    dsimp only
    split
    · rename_i hlength
      exact exists_numeral_whole hl hds (by omega) hlength
    · rename_i hlength
      exact exists_numeral_between hds (by omega) (by omega)

/-- The point stands behind the first digit. -/
theorem exists_numeral_scientific (hds : IsDigits ds) (x : Int) :
    ∃ n : Numeral, n.chars = scientific ds x ∧ n.value = leadingValue ds x := by
  match ds with
  | [] => exact absurd rfl hds.ne_nil
  | d :: rest =>
    have hwhole : IsDigits [d] := ⟨by simp, by simpa using hds.basic d List.mem_cons_self⟩
    have hfraction : ∀ c ∈ rest, isBasicDigit c = true := fun c hc => hds.basic c (List.mem_cons_of_mem _ hc)
    refine ⟨⟨[d], rest, some x, hwhole, hfraction⟩, ?_, ?_⟩
    · cases rest with
      | nil => rfl
      | cons e rest => simp [Numeral.chars, Numeral.pointPart, Numeral.exponentPart, scientific]
    · refine Numeral.value_eq (j := 0) ?_ ?_
      · simp [Numeral.digits]
      · simp only [Numeral.lastExponent, Option.getD_some, List.length_cons]
        omega

/-- A layout writes a sign and a numeral with the value of the digits. -/
theorem exists_numeral {l : Layout} (hl : l.IsPlain) (negative : Bool) (hds : IsDigits ds) (x : Int) :
    ∃ n : Numeral, l.write negative ds x = String.ofList (if negative then '-' :: n.chars else n.chars) ∧
      n.value = leadingValue ds x := by
  have hbody : ∃ n : Numeral,
      n.chars = (if -4 ≤ x && x < l.limit then l.positional ds x else scientific ds x) ∧
        n.value = leadingValue ds x := by
    split
    · exact exists_numeral_positional hl hds x
    · exact exists_numeral_scientific hds x
  obtain ⟨n, hchars, hvalue⟩ := hbody
  exact ⟨n, by rw [hchars]; rfl, hvalue⟩

end Layout

/-- A number with some decimals is a numeral without an exponent. -/
theorem exists_numeral_placeText (places n : Nat) :
    ∃ m : Numeral, m.chars = placeText places n ∧ m.digits = n ∧ m.exponent = none ∧ m.fraction.length = places := by
  have hdigits := (isDigits_toDigits n).padded (places + 1 - (Nat.toDigits 10 n).length)
  have hvalue := valueOfDigits_zeros_append (isDigits_toDigits n).basic (places + 1 - (Nat.toDigits 10 n).length)
  have hlength : places <
      (List.replicate (places + 1 - (Nat.toDigits 10 n).length) '0' ++ Nat.toDigits 10 n).length := by
    rw [List.length_append, List.length_replicate]
    omega
  rw [valueOfDigits_toDigits] at hvalue
  unfold placeText
  dsimp only
  generalize List.replicate (places + 1 - (Nat.toDigits 10 n).length) '0' ++ Nat.toDigits 10 n = ds
    at hdigits hvalue hlength ⊢
  split
  · rename_i hplaces
    refine ⟨⟨ds, [], none, hdigits, nofun⟩, ?_, ?_, rfl, hplaces.symm⟩
    · simp [Numeral.chars, Numeral.pointPart, Numeral.exponentPart]
    · rw [Numeral.digits, List.append_nil, hvalue]
  · have hwhole : IsDigits (ds.take (ds.length - places)) := by
      refine ⟨?_, fun c hc => hdigits.basic c (List.mem_of_mem_take hc)⟩
      rw [← List.length_pos_iff, List.length_take]
      omega
    have hfraction : ds.drop (ds.length - places) ≠ [] := by
      rw [← List.length_pos_iff, List.length_drop]
      omega
    refine ⟨⟨ds.take (ds.length - places), ds.drop (ds.length - places), none, hwhole,
      fun c hc => hdigits.basic c (List.mem_of_mem_drop hc)⟩, ?_, ?_, rfl, ?_⟩
    · simp [Numeral.chars, Numeral.pointPart, Numeral.exponentPart, hfraction]
    · rw [Numeral.digits, List.take_append_drop, hvalue]
    · show (ds.drop (ds.length - places)).length = places
      rw [List.length_drop]
      omega

/-! ## §3 Parts of numerals -/

/-- No digit comes next. -/
def StopsDigits (cs : List Char) : Prop := ∀ c ∈ cs.head?, isBasicDigit c = false

/-- An exponent is written with a sign and its digits. -/
theorem Layout.exists_digits_exponentPart (x : Int) : ∃ ds, IsDigits ds ∧ valueOfDigits ds = x.natAbs ∧
    exponentPart x = 'e' :: (if x < 0 then '-' else '+') :: ds := by
  refine ⟨_, (isDigits_toDigits x.natAbs).padded _, ?_, rfl⟩
  rw [valueOfDigits_zeros_append isBasicDigit_of_mem_toDigits, valueOfDigits_toDigits]

theorem exponent?_exponentPart (x : Int) : exponent? (Layout.exponentPart x) = some x := by
  obtain ⟨ds, hds, hvalue, hpart⟩ := Layout.exists_digits_exponentPart x
  have hdigits : (ds.isEmpty || !ds.all isBasicDigit) = false := by simpa [hds.ne_nil] using hds.basic
  rw [hpart]
  by_cases hx : x < 0
  · simp [exponent?, hx, takeSign, hdigits, hvalue, abs_of_neg hx]
  · simp [exponent?, hx, takeSign, hdigits, hvalue, abs_of_nonneg (not_lt.1 hx)]

namespace Numeral

theorem stops_pointPart_append (n : Numeral) : StopsDigits (n.pointPart ++ n.exponentPart) := by
  unfold pointPart exponentPart
  split
  · cases n.exponent with
    | none => nofun
    | some x => simp [StopsDigits, Layout.exponentPart, isBasicDigit]
  · simp [StopsDigits, isBasicDigit]

theorem stops_exponentPart (n : Numeral) : StopsDigits n.exponentPart := by
  unfold exponentPart
  cases n.exponent with
  | none => nofun
  | some x => simp [StopsDigits, Layout.exponentPart, isBasicDigit]

theorem exponent?_eq (n : Numeral) : exponent? n.exponentPart = some (n.exponent.getD 0) := by
  unfold exponentPart
  cases n.exponent with
  | none => rfl
  | some x => exact exponent?_exponentPart x

/-- A point follows the whole digits, or only an exponent does. -/
theorem point_cases (n : Numeral) :
    (n.fraction = [] ∧ n.pointPart ++ n.exponentPart = n.exponentPart) ∨
      n.pointPart ++ n.exponentPart = '.' :: (n.fraction ++ n.exponentPart) := by
  unfold pointPart
  split
  · rename_i hnil
    exact .inl ⟨List.isEmpty_iff.1 hnil, rfl⟩
  · exact .inr rfl

theorem exponentPart_ne_point (n : Numeral) (rest : List Char) : n.exponentPart ≠ '.' :: rest := by
  unfold exponentPart
  cases n.exponent <;> simp [Layout.exponentPart]

/-- A numeral is taken apart into its digits and the exponent of the last one. -/
theorem numeral?_chars (n : Numeral) : numeral? n.chars = some (n.digits, n.lastExponent) := by
  obtain ⟨htake, hdrop⟩ := takeWhile_append_of_stop n.whole_isDigits.basic n.stops_pointPart_append
  have hne : n.whole.isEmpty = false := by simp [n.whole_isDigits.ne_nil]
  rw [numeral?, chars, htake, hdrop]
  dsimp only
  rcases n.point_cases with ⟨hnil, hpoint⟩ | hpoint
  · rw [hpoint]
    split
    · rename_i rest hexponent
      exact absurd hexponent (n.exponentPart_ne_point rest)
    · simp [hne, n.exponent?_eq, digits, lastExponent, hnil]
  · obtain ⟨htake, hdrop⟩ := takeWhile_append_of_stop n.fraction_basic n.stops_exponentPart
    rw [hpoint]
    simp [htake, hdrop, hne, n.exponent?_eq, digits, lastExponent]

/-- A numeral starts with a digit. -/
theorem exists_head (n : Numeral) : ∃ d ∈ basicDigits, ∃ cs, n.chars = d :: cs := by
  obtain ⟨d, ds, hds⟩ := List.exists_cons_of_ne_nil n.whole_isDigits.ne_nil
  refine ⟨d, mem_basicDigits (n.whole_isDigits.basic d ?_), ds ++ (n.pointPart ++ n.exponentPart), ?_⟩
  · rw [hds]
    exact List.mem_cons_self
  · rw [chars, hds, List.cons_append]

theorem takeSign_chars (n : Numeral) : takeSign n.chars = (false, n.chars) := by
  obtain ⟨d, hd, cs, hcs⟩ := n.exists_head
  have hsigns : '-' ∉ basicDigits ∧ '+' ∉ basicDigits := by decide
  rw [hcs]
  unfold takeSign
  split
  · rename_i heq
    cases heq
    exact absurd hd hsigns.1
  · rename_i heq
    cases heq
    exact absurd hd hsigns.2
  · rfl

/-- No numeral is the name of a number. -/
theorem magnitude?_chars (negative : Bool) (n : Numeral) :
    magnitude? negative n.chars = some (nearestDecimal negative n.digits n.lastExponent) := by
  have hletters : ∀ d ∈ basicDigits, d.toLower ≠ 'i' ∧ d.toLower ≠ 'n' := List.all_iff_forall_prop.1 (by decide)
  have hname : ∀ name : String, name.toList.head? = some 'i' ∨ name.toList.head? = some 'n' →
      String.ofList (n.chars.map Char.toLower) ≠ name := by
    obtain ⟨d, hd, cs, hcs⟩ := n.exists_head
    rintro name hhead rfl
    rw [String.toList_ofList, hcs, List.map_cons, List.head?_cons, Option.some.injEq, Option.some.injEq] at hhead
    exact hhead.elim (hletters d hd).1 (hletters d hd).2
  -- the names of numbers start with letters, and a numeral with a digit
  rw [magnitude?]
  simp only [hname "inf" (.inl rfl), hname "infinity" (.inl rfl), hname "nan" (.inr rfl), n.numeral?_chars]
  rfl

end Numeral

/-! ## §4 Texts of numbers -/

/-- The characters that texts of numbers are made of. -/
def numberCharacters : List Char := basicDigits ++ ['.', '+', '-', 'e', 'i', 'n', 'f', 'a']

/-- None of them is taken away or replaced before a number is read, or cuts a text into words. -/
theorem numberCharacters_spec : ∀ c ∈ numberCharacters,
    isBlank c = false ∧ basicDigit c = c ∧ c ≠ '_' ∧ c ≠ '(' ∧ c ≠ ')' :=
  List.all_iff_forall_prop.1 (by decide +kernel)

/-- A text of a number: some of their characters. -/
structure IsNumberText (s : String) : Prop where
  ne_nil : s.toList ≠ []
  subset : s.toList ⊆ numberCharacters

namespace IsNumberText

variable {s : String}

theorem isWord (h : IsNumberText s) : IsWord s :=
  ⟨h.ne_nil, fun c hc => (numberCharacters_spec c (h.subset hc)).1⟩

theorem ruleWords (h : IsNumberText s) : ruleWords s = [s] := by
  refine ruleWords_of_isWord h.isWord ?_ ?_
  · intro hopening
    exact (numberCharacters_spec _ (h.subset hopening)).2.2.2.1 rfl
  · intro hclosing
    exact (numberCharacters_spec _ (h.subset hclosing)).2.2.2.2 rfl

end IsNumberText

theorem subset_numberCharacters {ds : List Char} (h : ∀ c ∈ ds, isBasicDigit c = true) :
    ds ⊆ numberCharacters :=
  fun c hc => List.mem_append_left _ (mem_basicDigits (h c hc))

theorem exponentPart_subset (x : Int) : Layout.exponentPart x ⊆ numberCharacters := by
  obtain ⟨ds, hds, -, hpart⟩ := Layout.exists_digits_exponentPart x
  have hsign : (if x < 0 then '-' else '+') ∈ numberCharacters := by split <;> decide
  rw [hpart, List.cons_subset, List.cons_subset]
  exact ⟨by decide, hsign, subset_numberCharacters hds.basic⟩

namespace Numeral

theorem chars_subset (n : Numeral) : n.chars ⊆ numberCharacters := by
  have hpoint : n.pointPart ⊆ numberCharacters := by
    unfold pointPart
    split
    · exact List.nil_subset _
    · exact List.cons_subset.2 ⟨by decide, subset_numberCharacters n.fraction_basic⟩
  have hexponent : n.exponentPart ⊆ numberCharacters := by
    unfold exponentPart
    split
    · exact List.nil_subset _
    · exact exponentPart_subset _
  exact List.append_subset.2
    ⟨subset_numberCharacters n.whole_isDigits.basic, List.append_subset.2 ⟨hpoint, hexponent⟩⟩

/-- A numeral with a sign or without is a text of a number. -/
theorem isNumberText (n : Numeral) (negative : Bool) :
    IsNumberText (String.ofList (if negative then '-' :: n.chars else n.chars)) := by
  obtain ⟨d, -, cs, hcs⟩ := n.exists_head
  cases negative with
  | true =>
    refine ⟨by simp, ?_⟩
    rw [String.toList_ofList]
    exact List.cons_subset.2 ⟨by decide, n.chars_subset⟩
  | false =>
    refine ⟨by simp [hcs], ?_⟩
    rw [String.toList_ofList]
    exact n.chars_subset

end Numeral

theorem isNumberText_write {l : Layout} (hl : l.IsPlain) (negative : Bool) {ds : List Char} (hds : IsDigits ds)
    (x : Int) : IsNumberText (l.write negative ds x) := by
  obtain ⟨n, hn, -⟩ := Layout.exists_numeral hl negative hds x
  rw [hn]
  exact n.isNumberText negative

theorem IsDigits.dropTrailingZeros {ds : List Char} (h : IsDigits ds) : IsDigits (dropTrailingZeros ds) := by
  unfold Decimal.dropTrailingZeros
  split
  · exact isDigits_zero
  · rename_i hne
    refine ⟨hne, fun c hc => h.basic c ?_⟩
    exact List.mem_reverse.1 ((List.dropWhile_sublist _).subset (List.mem_reverse.1 hc))

theorem isDigits_significantDigits (count num den : Nat) : IsDigits (significantDigits count num den).1 := by
  unfold significantDigits
  dsimp only
  split
  · exact isDigits_toDigits _
  · exact isDigits_toDigits _

variable (x : Float)

/-- Numbers that are not finite have a name. -/
theorem isNumberText_name : IsNumberText "nan" ∧ IsNumberText "-inf" ∧ IsNumberText "inf" :=
  ⟨⟨by decide, by decide⟩, ⟨by decide, by decide⟩, ⟨by decide, by decide⟩⟩

theorem isNumberText_fixedText (places : Nat) : IsNumberText (fixedText places x) := by
  unfold fixedText
  split
  · exact isNumberText_name.1
  · split
    · exact isNumberText_name.2.1
    · exact isNumberText_name.2.2
  · rename_i negative m e _
    obtain ⟨n, hn, -⟩ := exists_numeral_placeText places (unitsOf places m e)
    dsimp only
    rw [← hn]
    exact n.isNumberText _

theorem isNumberText_significantText (count : Nat) : IsNumberText (significantText count x) := by
  unfold significantText
  split
  · exact isNumberText_name.1
  · split
    · exact isNumberText_name.2.1
    · exact isNumberText_name.2.2
  · dsimp only
    split
    · exact isNumberText_write (.inl rfl) _ isDigits_zero _
    · exact isNumberText_write (.inl rfl) _ (isDigits_significantDigits _ _ _).dropTrailingZeros _

/-! ## §5 Reading texts of numbers -/

theorem dropWhile_surroundsNumber {cs : List Char} (h : ∀ c ∈ cs.head?, isBlank c = false) :
    cs.dropWhile surroundsNumber = cs := by
  cases cs with
  | nil => rfl
  | cons c cs =>
    have hc : isBlank c = false := h c (by simp)
    exact List.dropWhile_cons_of_neg (by simp [surroundsNumber, hc])

theorem numberChars_of_isNumberText {s : String} (h : IsNumberText s) : numberChars s = s.toList := by
  have hblank : ∀ c ∈ s.toList, isBlank c = false := fun c hc => (numberCharacters_spec c (h.subset hc)).1
  have hbasic : s.toList.map basicDigit = s.toList :=
    (List.map_congr_left fun c hc => (numberCharacters_spec c (h.subset hc)).2.1).trans (List.map_id' _)
  rw [numberChars, dropWhile_surroundsNumber fun c hc => hblank c (List.mem_of_mem_head? hc),
    dropWhile_surroundsNumber fun c hc => hblank c (List.mem_reverse.1 (List.mem_of_mem_head? hc)),
    List.reverse_reverse, hbasic]

theorem dropUnderscores?_eq {cs : List Char} (h : '_' ∉ cs) (afterDigit : Bool) :
    dropUnderscores? afterDigit cs = some cs := by
  induction cs generalizing afterDigit with
  | nil => rw [dropUnderscores?]
  | cons c cs ih =>
    obtain ⟨hc, hcs⟩ := List.ne_and_not_mem_of_not_mem_cons h
    rw [dropUnderscores?.eq_4 _ _ _ (Ne.symm hc), ih hcs, Option.map_some]

/-- The number that a numeral with a sign or without denotes. -/
theorem Numeral.readFloat?_eq (n : Numeral) (negative : Bool) :
    readFloat? (String.ofList (if negative then '-' :: n.chars else n.chars)) =
      some (nearestDecimal negative n.digits n.lastExponent) := by
  have htext := n.isNumberText negative
  have hunderscore : '_' ∉ (String.ofList (if negative then '-' :: n.chars else n.chars)).toList :=
    fun hmem => (numberCharacters_spec _ (htext.subset hmem)).2.2.1 rfl
  rw [readFloat?, numberChars_of_isNumberText htext, dropUnderscores?_eq hunderscore]
  dsimp only
  rw [String.toList_ofList]
  cases negative with
  | true => exact n.magnitude?_chars true
  | false =>
    simp only [Bool.false_eq_true, if_false, n.takeSign_chars]
    exact n.magnitude?_chars false

/-- Of the text of some digits the nearest number to their value is read. -/
theorem readFloat?_write {l : Layout} (hl : l.IsPlain) (negative : Bool) {ds : List Char} (hds : IsDigits ds)
    (x : Int) : ∃ (n : Nat) (k : Int), readFloat? (l.write negative ds x) = some (nearestDecimal negative n k) ∧
      (n : ℚ) * 10 ^ k = leadingValue ds x := by
  obtain ⟨n, hn, hvalue⟩ := Layout.exists_numeral hl negative hds x
  refine ⟨n.digits, n.lastExponent, ?_, hvalue⟩
  rw [hn, n.readFloat?_eq negative]

/-- Some number is read of significant digits. -/
theorem exists_readFloat?_significantText (count : Nat) (x : Float) :
    ∃ y, readFloat? (significantText count x) = some y := by
  have hnames : (readFloat? "nan").isSome = true ∧ (readFloat? "-inf").isSome = true ∧
      (readFloat? "inf").isSome = true := by decide +kernel
  obtain ⟨hnan, hnegative, hpositive⟩ := hnames
  unfold significantText
  split
  · exact Option.isSome_iff_exists.1 hnan
  · split
    · exact Option.isSome_iff_exists.1 hnegative
    · exact Option.isSome_iff_exists.1 hpositive
  · dsimp only
    split
    · obtain ⟨n, k, hread, -⟩ := readFloat?_write (l := ⟨count, []⟩) (.inl rfl) _ isDigits_zero _
      exact ⟨_, hread⟩
    · obtain ⟨n, k, hread, -⟩ := readFloat?_write (l := ⟨count, []⟩) (.inl rfl) _
        (isDigits_significantDigits _ _ _).dropTrailingZeros _
      exact ⟨_, hread⟩

/-! ### Numbers without a sign -/

/-- A digit of some script is a basic digit in disguise, and no blank. -/
theorem basicDigit_of_isDigit {c : Char} (h : isDigit c = true) :
    isBlank c = false ∧ basicDigit c ∈ basicDigits := by
  have hcodes : ∀ z ∈ zeroDigitCodes, ∀ b ∈ blankCodes, b < z ∨ z + 10 ≤ b := by decide +kernel
  have hbasic : ∀ d < 10, Char.ofNat (0x30 + d) ∈ basicDigits := by decide
  cases hfind : zeroDigitCodes.find? (fun z => z ≤ c.toNat && c.toNat < z + 10) with
  | none => simp [isDigit, digit?, hfind] at h
  | some z =>
    have hmem := List.mem_of_find?_eq_some hfind
    have hrange := List.find?_some hfind
    simp only [Bool.and_eq_true, decide_eq_true_eq] at hrange
    constructor
    · rw [isBlank, List.contains_eq_mem, decide_eq_false_iff_not]
      intro hblank
      have hcode := hcodes z hmem _ hblank
      omega
    · simp only [basicDigit, digit?, hfind]
      exact hbasic _ (by omega)

/-- What surrounds a number is taken away behind its first character. -/
theorem numberChars_cons {s : String} {c : Char} {cs : List Char} (hs : s.toList = c :: cs)
    (hc : isBlank c = false) : ∃ ds, numberChars s = basicDigit c :: ds := by
  have hsurrounds : ∀ d ∈ (c :: cs).head?, isBlank d = false := by simpa using hc
  have hend : ∃ ds, (cs.reverse ++ [c]).dropWhile surroundsNumber = ds ++ [c] := by
    rw [List.dropWhile_append]
    split
    · exact ⟨[], dropWhile_surroundsNumber (by simpa using hc)⟩
    · exact ⟨_, rfl⟩
  obtain ⟨ds, hds⟩ := hend
  rw [numberChars, hs, dropWhile_surroundsNumber hsurrounds, List.reverse_cons, hds]
  exact ⟨ds.reverse.map basicDigit, by simp⟩

/-- A text that starts with a digit or with a point has no sign. -/
theorem exists_magnitude?_of_head {s : String} {c : Char} {x : Float} (hhead : c ∈ s.toList.head?)
    (hc : isDigit c = true ∨ c = '.') (h : readFloat? s = some x) : ∃ cs, magnitude? false cs = some x := by
  have hall : ∀ d ∈ '.' :: basicDigits, d ≠ '_' ∧ d ≠ '-' ∧ d ≠ '+' := List.all_iff_forall_prop.1 (by decide)
  have hfirst : isBlank c = false ∧ basicDigit c ∈ '.' :: basicDigits := by
    rcases hc with hdigit | rfl
    · exact (basicDigit_of_isDigit hdigit).imp_right (List.mem_cons_of_mem _)
    · exact ⟨by decide, by decide⟩
  obtain ⟨hunderscore, hminus, hplus⟩ := hall _ hfirst.2
  obtain ⟨cs, hcs⟩ := List.head?_eq_some_iff.1 hhead
  obtain ⟨ds, hds⟩ := numberChars_cons hcs hfirst.1
  rw [readFloat?, hds, dropUnderscores?.eq_4 _ _ _ hunderscore] at h
  cases hdrop : dropUnderscores? (isBasicDigit (basicDigit c)) ds with
  | none => simp [hdrop] at h
  | some rest =>
    rw [hdrop] at h
    have hsign : takeSign (basicDigit c :: rest) = (false, basicDigit c :: rest) := by
      simp [takeSign, hminus, hplus]
    simp only [Option.map_some, hsign] at h
    exact ⟨_, h⟩

/-! ### Characters that no number has -/

/-- What is dropped from the front of a list are items of the kind that is dropped. -/
theorem mem_dropWhile_of_not {β : Type} {p : β → Bool} {c : β} {cs : List β} (h : c ∈ cs) (hc : p c = false) :
    c ∈ cs.dropWhile p := by
  rw [← List.takeWhile_append_dropWhile (p := p) (l := cs)] at h
  rcases List.mem_append.1 h with h | h
  · rw [List.mem_takeWhile_imp h] at hc
    cases hc
  · exact h

theorem mem_takeSign {c : Char} {cs : List Char} (h : c ∈ cs) (hminus : c ≠ '-') (hplus : c ≠ '+') :
    c ∈ (takeSign cs).2 := by
  unfold takeSign
  split
  · exact (List.mem_cons.1 h).resolve_left hminus
  · exact (List.mem_cons.1 h).resolve_left hplus
  · exact h

theorem mem_of_dropUnderscores? {c : Char} (hc : c ≠ '_') {afterDigit : Bool} {cs ds : List Char}
    (hdrop : dropUnderscores? afterDigit cs = some ds) (h : c ∈ cs) : c ∈ ds := by
  fun_induction dropUnderscores? afterDigit cs generalizing ds with
  | case1 => cases h
  | case2 afterDigit d rest hbetween ih => exact ih hdrop ((List.mem_cons.1 h).resolve_left hc)
  | case3 => cases hdrop
  | case4 => cases hdrop
  | case5 afterDigit d rest hd ih =>
    obtain ⟨rest', hrest, rfl⟩ := Option.map_eq_some_iff.1 hdrop
    rcases List.mem_cons.1 h with rfl | h
    · exact List.mem_cons_self
    · exact List.mem_cons_of_mem _ (ih hrest h)

/-- The letters of `infinity` and of `nan`. -/
def nameLetters : List Char := ['i', 'n', 'f', 't', 'y', 'a']

/-- The character is no part of a number, wherever it stands. -/
structure IsForeign (c : Char) : Prop where
  surrounds : surroundsNumber c = false
  basicDigit : basicDigit c = c
  isBasicDigit : isBasicDigit c = false
  marks : c ∉ ['_', '-', '+', '.', 'e', 'E']
  letters : c.toLower ∉ nameLetters

theorem isForeign_parenthesis {c : Char} (h : c = '(' ∨ c = ')') : IsForeign c := by
  rcases h with rfl | rfl
  · exact ⟨by decide +kernel, by decide +kernel, by decide, by decide, by decide⟩
  · exact ⟨by decide +kernel, by decide +kernel, by decide, by decide, by decide⟩

theorem exponent?_eq_none {c : Char} (hc : IsForeign c) {cs : List Char} (h : c ∈ cs) : exponent? cs = none := by
  have hmarks := hc.marks
  simp only [List.mem_cons, List.not_mem_nil, or_false, not_or] at hmarks
  obtain ⟨-, hminus, hplus, -, he, hE⟩ := hmarks
  unfold exponent?
  split
  · cases h
  · rename_i d rest
    split
    · rename_i hd
      have hrest : c ∈ rest := by
        refine (List.mem_cons.1 h).resolve_left ?_
        rintro rfl
        simp [he, hE] at hd
      have hdigits := mem_takeSign hrest hminus hplus
      have hnot : (takeSign rest).2.all isBasicDigit = false := by
        rw [List.all_eq_false]
        exact ⟨c, hdigits, by simp [hc.isBasicDigit]⟩
      simp [hnot]
    · rfl

theorem numeral?_eq_none {c : Char} (hc : IsForeign c) {cs : List Char} (h : c ∈ cs) : numeral? cs = none := by
  have hpoint : c ≠ '.' := fun hpoint => hc.marks (by simp [hpoint])
  have hrest : c ∈ cs.dropWhile isBasicDigit := mem_dropWhile_of_not h hc.isBasicDigit
  unfold numeral?
  generalize cs.dropWhile isBasicDigit = rest at hrest
  dsimp only
  split
  · have hfraction : c ∈ (List.dropWhile isBasicDigit _) :=
      mem_dropWhile_of_not ((List.mem_cons.1 hrest).resolve_left hpoint) hc.isBasicDigit
    rw [exponent?_eq_none hc hfraction]
    simp
  · rw [exponent?_eq_none hc hrest]
    simp

theorem magnitude?_eq_none {c : Char} (hc : IsForeign c) {cs : List Char} (h : c ∈ cs) (negative : Bool) :
    magnitude? negative cs = none := by
  have hnames : ∀ name : String, name.toList ⊆ nameLetters → String.ofList (cs.map Char.toLower) ≠ name := by
    rintro name hletters rfl
    rw [String.toList_ofList] at hletters
    exact hc.letters (hletters (List.mem_map.2 ⟨c, h, rfl⟩))
  have hinf := hnames "inf" (by decide)
  have hinfinity := hnames "infinity" (by decide)
  have hnan := hnames "nan" (by decide)
  simp [magnitude?, hinf, hinfinity, hnan, numeral?_eq_none hc h]

/-- No text with such a character denotes a number. -/
theorem readFloat?_eq_none {c : Char} (hc : IsForeign c) {s : String} (h : c ∈ s.toList) : readFloat? s = none := by
  have hmarks := hc.marks
  simp only [List.mem_cons, List.not_mem_nil, or_false, not_or] at hmarks
  obtain ⟨hunderscore, hminus, hplus, -⟩ := hmarks
  have hchars : c ∈ numberChars s := by
    have hfront := mem_dropWhile_of_not h hc.surrounds
    have hback := mem_dropWhile_of_not (List.mem_reverse.2 hfront) hc.surrounds
    exact List.mem_map.2 ⟨c, List.mem_reverse.2 hback, hc.basicDigit⟩
  unfold readFloat?
  split
  · rfl
  · rename_i cs hdrop
    have hrest := mem_takeSign (mem_of_dropUnderscores? hunderscore hdrop hchars) hminus hplus
    exact magnitude?_eq_none hc hrest _

end FuzzyInference.Decimal
