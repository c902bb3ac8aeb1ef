import FuzzyInference.Decimal.Layout
import FuzzyInference.Decimal.Reader
import Mathlib.Algebra.Group.Nat.Defs

/-!
# Digits of whole numbers

Whole numbers are written and read with the ten basic digits. The digits of a number denote it, and zeros
before or behind some digits leave their value alone or multiply it by a power of ten.

The plan of this module:

* basic digits;
* the value of digits;
* the number of digits.

## Main statements

* `valueOfDigits_toDigits`: the digits of a number denote it
* `pow_le_of_digitCount`, `lt_pow_digitCount`: a number lies between the powers of ten next to it
-/

namespace FuzzyInference.Decimal

open Text

/-! ## §1 Basic digits -/

theorem toNat_of_isBasicDigit {c : Char} (h : isBasicDigit c = true) : 48 ≤ c.toNat ∧ c.toNat < 58 := by
  rw [isBasicDigit, Bool.and_eq_true, decide_eq_true_eq, decide_eq_true_eq] at h
  have hlow : '0'.toNat ≤ c.toNat := h.1
  have hhigh : c.toNat ≤ '9'.toNat := h.2
  have hzero : '0'.toNat = 48 := rfl
  have hnine : '9'.toNat = 57 := rfl
  omega

/-- The ten basic digits. -/
def basicDigits : List Char := ['0', '1', '2', '3', '4', '5', '6', '7', '8', '9']

theorem mem_basicDigits {c : Char} (h : isBasicDigit c = true) : c ∈ basicDigits := by
  obtain ⟨hlow, hhigh⟩ := toNat_of_isBasicDigit h
  have hcodes : ∀ n < 58, 48 ≤ n → Char.ofNat n ∈ basicDigits := by decide
  rw [← Char.ofNat_toNat c]
  exact hcodes c.toNat hhigh hlow

theorem digit?_of_isBasicDigit {c : Char} (h : isBasicDigit c = true) : digit? c = some (c.toNat - 48) := by
  obtain ⟨hlow, hhigh⟩ := toNat_of_isBasicDigit h
  have hfind : zeroDigitCodes.find? (fun z => z ≤ c.toNat && c.toNat < z + 10) = some 48 := by
    rw [zeroDigitCodes, List.find?_cons_of_pos]
    simp [hlow, hhigh]
  rw [digit?, hfind]

theorem isBasicDigit_of_mem_toDigits {n : Nat} : ∀ c ∈ Nat.toDigits 10 n, isBasicDigit c = true :=
  fun _ hc => Nat.isDigit_of_mem_toDigits (by decide) (by decide) hc

theorem isBasicDigit_of_mem_replicate {k : Nat} : ∀ c ∈ List.replicate k '0', isBasicDigit c = true := by
  intro c hc
  rw [List.eq_of_mem_replicate hc]
  rfl

/-! ## §2 Values -/

/-- Basic digits have the value that the library gives them. -/
theorem valueOfDigits_eq {ds : List Char} (h : ∀ c ∈ ds, isBasicDigit c = true) :
    valueOfDigits ds = Nat.ofDigitChars 10 ds 0 := by
  have hfold : ∀ n, ds.foldl (fun n c => 10 * n + (digit? c).getD 0) n = Nat.ofDigitChars 10 ds n := by
    induction ds with
    | nil => exact fun n => rfl
    | cons c ds ih =>
      intro n
      rw [List.foldl_cons, digit?_of_isBasicDigit (h c List.mem_cons_self), Nat.ofDigitChars_cons]
      exact ih (fun d hd => h d (List.mem_cons_of_mem _ hd)) _
  exact hfold 0

theorem valueOfDigits_toDigits (n : Nat) : valueOfDigits (Nat.toDigits 10 n) = n := by
  rw [valueOfDigits_eq isBasicDigit_of_mem_toDigits, Nat.ofDigitChars_ten_toDigits]

theorem valueOfDigits_append {ds es : List Char} (hds : ∀ c ∈ ds, isBasicDigit c = true)
    (hes : ∀ c ∈ es, isBasicDigit c = true) :
    valueOfDigits (ds ++ es) = valueOfDigits ds * 10 ^ es.length + valueOfDigits es := by
  have happend : ∀ c ∈ ds ++ es, isBasicDigit c = true := by
    intro c hc
    exact (List.mem_append.1 hc).elim (hds c) (hes c)
  rw [valueOfDigits_eq happend, valueOfDigits_eq hds, valueOfDigits_eq hes, Nat.ofDigitChars_append,
    Nat.ofDigitChars_eq_ofDigitChars_zero, Nat.mul_comm]

theorem valueOfDigits_replicate (k : Nat) : valueOfDigits (List.replicate k '0') = 0 := by
  rw [valueOfDigits_eq isBasicDigit_of_mem_replicate, Nat.ofDigitChars_replicate_zero, Nat.mul_zero]

/-- Zeros behind digits are powers of ten. -/
theorem valueOfDigits_append_zeros {ds : List Char} (hds : ∀ c ∈ ds, isBasicDigit c = true) (k : Nat) :
    valueOfDigits (ds ++ List.replicate k '0') = valueOfDigits ds * 10 ^ k := by
  rw [valueOfDigits_append hds isBasicDigit_of_mem_replicate, valueOfDigits_replicate, List.length_replicate,
    Nat.add_zero]

/-- Zeros before digits do not count. -/
theorem valueOfDigits_zeros_append {ds : List Char} (hds : ∀ c ∈ ds, isBasicDigit c = true) (k : Nat) :
    valueOfDigits (List.replicate k '0' ++ ds) = valueOfDigits ds := by
  rw [valueOfDigits_append isBasicDigit_of_mem_replicate hds, valueOfDigits_replicate, Nat.zero_mul,
    Nat.zero_add]

/-- What is dropped of digits are zeros, unless all are. -/
theorem exists_dropTrailingZeros {ds : List Char} (h : valueOfDigits ds ≠ 0) :
    ∃ k, ds = dropTrailingZeros ds ++ List.replicate k '0' := by
  have hzeros : (ds.reverse.takeWhile (· == '0')).reverse =
      List.replicate (ds.reverse.takeWhile (· == '0')).length '0' := by
    rw [← List.length_reverse]
    refine List.eq_replicate_of_mem fun c hc => ?_
    simpa using List.all_eq_true.1 List.all_takeWhile c (List.mem_reverse.1 hc)
  have hds : ds = (ds.reverse.dropWhile (· == '0')).reverse ++
      List.replicate (ds.reverse.takeWhile (· == '0')).length '0' :=
    calc ds = (ds.reverse.takeWhile (· == '0') ++ ds.reverse.dropWhile (· == '0')).reverse := by
          rw [List.takeWhile_append_dropWhile, List.reverse_reverse]
      _ = (ds.reverse.dropWhile (· == '0')).reverse ++ (ds.reverse.takeWhile (· == '0')).reverse :=
          List.reverse_append
      _ = _ := by rw [hzeros]
  refine ⟨(ds.reverse.takeWhile (· == '0')).length, ?_⟩
  unfold dropTrailingZeros
  split
  · rename_i hnil
    rw [hnil, List.nil_append] at hds
    rw [hds, valueOfDigits_replicate] at h
    exact absurd rfl h
  · exact hds

/-! ## §3 The number of digits -/

theorem lt_pow_digitCount (n : Nat) : n < 10 ^ digitCount n := by
  unfold digitCount
  split
  · rename_i h
    rw [h]
    decide
  · exact (Nat.length_toDigits_le_iff (by decide) Nat.length_toDigits_pos).1 (Nat.le_refl _)

theorem digitCount_pos {n : Nat} (h : n ≠ 0) : 0 < digitCount n := by
  rw [digitCount, if_neg h]
  exact Nat.length_toDigits_pos

theorem pow_le_of_digitCount {n : Nat} (h : n ≠ 0) : 10 ^ (digitCount n - 1) ≤ n := by
  rw [digitCount, if_neg h]
  rcases Nat.eq_zero_or_pos ((Nat.toDigits 10 n).length - 1) with hone | hmore
  · rw [hone]
    exact Nat.one_le_iff_ne_zero.2 h
  · -- one digit less is too few
    refine Nat.not_lt.1 fun hlt => ?_
    have hle := (Nat.length_toDigits_le_iff (by decide) hmore).2 hlt
    omega

end FuzzyInference.Decimal
