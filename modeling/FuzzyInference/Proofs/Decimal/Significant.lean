import FuzzyInference.Proofs.Decimal.Shortest

/-!
# Significant digits

A number that is written with a given number of significant digits is read back as itself when it has no more
digits than that: when it is the number nearest to some decimal of so many digits. The decimal that is written is
the nearest one of its grid, so that it lies at least as close as any other of so many digits, and whatever is
rounded to the number keeps this property when it moves closer. Only below a power of two, where the halfway point is
closer on one side, could the nearest decimal miss the number while another one further away does not; but up to
fifteen digits a grid is too coarse for two decimals around the same number.

The plan of this module:

* halfway points by distance;
* decimals of which a number is read are rounded to the number;
* the decimal that is written;
* the text of a number.

## Main statements

* `roundsTo_of_nearestDecimal`: what is rounded to a number lies between its halfway points
* `RoundsTo.significant`: the decimal that is written does as well as any other
* `exists_isRounded`: what is read of a text
* `readFloat?_significantText_iff`: the numbers that are read back
-/

namespace FuzzyInference.Decimal

open Text

/-! ## §1 Halfway points by distance -/

/-- The halfway points lie one half of a last place away, the one below a power of two only one quarter. -/
theorem roundsTo_iff {m : ℕ} {e : ℤ} {q : ℚ} (hm : 0 < m) :
    RoundsTo m e q ↔ |q / 2 ^ e - m| ≤ 1 / 2 ∧ (m % 2 ≠ 0 → |q / 2 ^ e - m| < 1 / 2) ∧
      (m = 2 ^ 52 → -1074 < e → 2 ^ 52 - 1 / 4 ≤ q / 2 ^ e) := by
  constructor
  · intro h
    refine ⟨(h.near hm).1, (h.near hm).2, ?_⟩
    rintro rfl he
    exact h.quarter he
  · rintro ⟨hnear, hodd, hquarter⟩
    have hbounds := abs_le.1 hnear
    have hhigh : ((roundingInterval m e).2.1 : ℚ) = 4 * m + 2 := by
      unfold roundingInterval
      push_cast
      rfl
    have hlow : ((roundingInterval m e).1 : ℚ) ≤ 4 * (q / 2 ^ e) ∧
        (m % 2 ≠ 0 → ((roundingInterval m e).1 : ℚ) < 4 * (q / 2 ^ e)) := by
      unfold roundingInterval
      dsimp only
      split
      · rename_i hpower
        simp only [Bool.and_eq_true, decide_eq_true_eq] at hpower
        obtain ⟨rfl, he⟩ := hpower
        have hclose := hquarter rfl he
        refine ⟨?_, fun hne => absurd rfl hne⟩
        norm_num at hclose ⊢
        linarith
      · rw [Nat.cast_sub (by omega)]
        push_cast
        refine ⟨by linarith, fun hne => ?_⟩
        have hstrict := abs_lt.1 (hodd hne)
        linarith
    rw [RoundsTo, Inside, RoundsTo.quarters, hhigh]
    split
    · exact ⟨hlow.1, by linarith⟩
    · rename_i hopen
      have hne : m % 2 ≠ 0 := by simpa [roundingInterval] using hopen
      have hstrict := abs_lt.1 (hodd hne)
      exact ⟨hlow.2 hne, by linarith⟩

/-- An odd quotient is less than one half away. -/
theorem abs_sub_roundDiv_lt (num : ℕ) {den : ℕ} (hden : 0 < den) (hodd : roundDiv num den % 2 ≠ 0) :
    |(num : ℚ) / den - roundDiv num den| < 1 / 2 := by
  refine lt_of_le_of_ne (abs_sub_roundDiv num hden) fun htie => hodd ?_
  have hdenq : (0 : ℚ) < den := by exact_mod_cast hden
  have hnum : (num : ℚ) = num / den * den := (div_mul_cancel₀ _ hdenq.ne').symm
  rcases (abs_eq (by norm_num)).1 htie with habove | hbelow
  · have hq : 2 * (num : ℚ) = (2 * roundDiv num den + 1) * den := by
      rw [hnum]
      linear_combination 2 * (den : ℚ) * habove
    exact even_roundDiv hden (by exact_mod_cast hq)
  · have hq : 2 * (num : ℚ) + den = 2 * roundDiv num den * den := by
      rw [hnum]
      linear_combination 2 * (den : ℚ) * hbelow
    have hnat : 2 * num + den = 2 * roundDiv num den * den := by exact_mod_cast hq
    obtain ⟨j, hj⟩ : ∃ j, roundDiv num den = j + 1 := Nat.exists_eq_succ_of_ne_zero (by omega)
    refine even_roundDiv (j := j) hden ?_
    rw [hj] at hnat
    linarith

/-! ## §2 Decimals of which a number is read -/

theorem magnitudeBits_bounds {m : ℕ} {e : ℤ} (hc : IsCanonical m e) (hm : 0 < m) :
    0 < magnitudeBits m e ∧ magnitudeBits m e < infinityBits := by
  have hinf : infinityBits = 9218868437227405312 := rfl
  obtain ⟨hlt, hleast, hgreatest, -⟩ := hc
  unfold magnitudeBits
  constructor
  · omega
  · omega

/-- Bits that are not those of an infinity belong to one number only. -/
theorem floatOfBits_inj {negative negative' : Bool} {a b : ℕ} (hb : b < infinityBits)
    (h : floatOfBits negative a = floatOfBits negative' b) : negative = negative' ∧ a = b := by
  have hinf : infinityBits = 9218868437227405312 := rfl
  have h63 : twoTo 63 = 9223372036854775808 := rfl
  have hbits := congrArg (fun x : Float => x.toBits.toNat) h
  simp only [toNat_toBits_floatOfBits] at hbits
  cases negative with
  | false =>
    cases negative' with
    | false => exact ⟨rfl, by simp only [Bool.false_eq_true, if_false] at hbits; omega⟩
    | true =>
      simp only [Bool.false_eq_true, if_false, if_true] at hbits
      omega
  | true =>
    cases negative' with
    | false =>
      simp only [Bool.false_eq_true, if_false, if_true] at hbits
      omega
    | true => exact ⟨rfl, by simp only [if_true] at hbits; omega⟩

/-- A significand and a unit with the bits of a number are those of the number, unless the significand has gone over
into the exponent. -/
theorem eq_of_magnitudeBits_eq {m s : ℕ} {e u : ℤ} (hc : IsCanonical m e) (hu : -1074 ≤ u) (hs : s ≤ 2 ^ 53)
    (hnormal : u = -1074 ∨ 2 ^ 52 ≤ s) (h : magnitudeBits s u = magnitudeBits m e) :
    (u = e ∧ s = m) ∨ (u = e - 1 ∧ s = 2 ^ 53 ∧ m = 2 ^ 52) := by
  obtain ⟨hlt, hleast, -, hm⟩ := hc
  unfold magnitudeBits at h
  omega

/-- A fraction in units of its last place has 53 bits, unless the unit is the least one. -/
theorem unit_bounds {q : ℚ} (hq : 0 < q) {u : ℤ} (hu : max (Int.log 2 q - 52) (-1074) = u) :
    q / 2 ^ u < 2 ^ 53 ∧ (u = -1074 ∨ 2 ^ 52 ≤ q / 2 ^ u) := by
  have hpow : (0 : ℚ) < 2 ^ u := by positivity
  constructor
  · have hlt : q < (2 : ℚ) ^ (Int.log 2 q + 1) := by exact_mod_cast Int.lt_zpow_succ_log_self one_lt_two q
    have hle : (2 : ℚ) ^ (Int.log 2 q + 1) ≤ 2 ^ (53 + u) := zpow_le_zpow_right₀ one_le_two (by omega)
    rw [div_lt_iff₀ hpow]
    calc q < 2 ^ (53 + u) := hlt.trans_le hle
      _ = 2 ^ 53 * 2 ^ u := by
        rw [zpow_add₀ two_ne_zero]
        norm_num
  · rcases le_or_gt (Int.log 2 q - 52) (-1074) with hsmall | hlarge
    · exact .inl (by omega)
    · right
      have hlog : Int.log 2 q = 52 + u := by omega
      have hle : (2 : ℚ) ^ Int.log 2 q ≤ q := by exact_mod_cast Int.zpow_log_le_self one_lt_two hq
      rw [le_div_iff₀ hpow]
      calc (2 : ℚ) ^ 52 * 2 ^ u = 2 ^ (52 + u) := by
            rw [zpow_add₀ two_ne_zero]
            norm_num
        _ ≤ q := hlog ▸ hle

/-- Fractions that are rounded to a number lie between the halfway points around it. -/
theorem roundsTo_of_nearestFloat {x : Float} {negative negative' : Bool} {num den m : ℕ} {e : ℤ} (hnum : 0 < num)
    (hden : 0 < den) (hx : Binary.ofFloat x = .finite negative m e) (hm : 0 < m)
    (h : nearestFloat negative' num den = x) : negative' = negative ∧ RoundsTo m e (num / den) := by
  obtain ⟨hc, hbits⟩ := isCanonical_of_ofFloat hx
  have hq : (0 : ℚ) < num / den := by positivity
  obtain ⟨u, hu⟩ : ∃ u, max (Int.log 2 ((num : ℚ) / den) - 52) (-1074) = u := ⟨_, rfl⟩
  obtain ⟨s, hs⟩ : ∃ s, roundDiv (num * twoTo (-u).toNat) (den * twoTo u.toNat) = s := ⟨_, rfl⟩
  rw [nearestFloat_of_unit negative' hnum hden hu hs, ← hbits] at h
  obtain ⟨hsign, hmagnitude⟩ := floatOfBits_inj (magnitudeBits_bounds hc hm).2 h
  refine ⟨hsign, ?_⟩
  -- the significand is the fraction in units of the last place, rounded
  have hpos : 0 < den * twoTo u.toNat := Nat.mul_pos hden (Nat.pow_pos two_pos)
  have hnear := abs_sub_roundDiv (num * twoTo (-u).toNat) hpos
  have hodd := abs_sub_roundDiv_lt (num * twoTo (-u).toNat) hpos
  rw [unit_ratio, hs] at hnear hodd
  obtain ⟨hbelow, habove⟩ := unit_bounds hq hu
  have hbounds := abs_le.1 hnear
  have hs53 : s ≤ 2 ^ 53 := by
    have hlt : (s : ℚ) < 2 ^ 53 + 1 := by linarith
    have hltNat : s < 2 ^ 53 + 1 := by exact_mod_cast hlt
    omega
  have hnormal : u = -1074 ∨ 2 ^ 52 ≤ s := by
    refine habove.imp_right fun hle => ?_
    have hlt : (2 : ℚ) ^ 52 < s + 1 := by linarith
    have hltNat : 2 ^ 52 < s + 1 := by exact_mod_cast hlt
    omega
  have hleast : -1074 ≤ u := by omega
  rcases eq_of_magnitudeBits_eq hc hleast hs53 hnormal hmagnitude with ⟨rfl, rfl⟩ | ⟨rfl, rfl, rfl⟩
  · refine (roundsTo_iff hm).2 ⟨hnear, hodd, fun _ he => ?_⟩
    have hle := habove.resolve_left he.ne'
    linarith
  · -- the fraction lies in the binade below
    have hhalf : (num : ℚ) / den / 2 ^ (e - 1) = 2 * (num / den / 2 ^ e) := by
      rw [zpow_sub₀ two_ne_zero]
      field_simp
    rw [hhalf] at hbounds
    push_cast at hbounds
    refine (roundsTo_iff hm).2 ⟨abs_le.2 ⟨?_, ?_⟩, fun hne => absurd rfl hne, fun _ _ => ?_⟩
    · push_cast
      linarith
    · push_cast
      linarith
    · linarith

/-- Decimals that are rounded to a number lie between the halfway points around it. -/
theorem roundsTo_of_nearestDecimal {x : Float} {negative negative' : Bool} {n m : ℕ} {k e : ℤ}
    (hx : Binary.ofFloat x = .finite negative m e) (hm : 0 < m) (h : nearestDecimal negative' n k = x) :
    negative' = negative ∧ RoundsTo m e (n * 10 ^ k) := by
  obtain ⟨hc, hbits⟩ := isCanonical_of_ofFloat hx
  obtain ⟨hpos, hfinite⟩ := magnitudeBits_bounds hc hm
  rw [← hbits] at h
  unfold nearestDecimal at h
  split at h
  · -- zero has other bits
    have hzero := (floatOfBits_inj hfinite h).2
    omega
  · rename_i hsmall
    split at h
    · have hinfinite := (floatOfBits_inj hfinite h).2
      omega
    · have hn : n ≠ 0 := by
        rintro rfl
        exact hsmall (by simp)
      have hscaled : (scaleTen n 1 k).1 / (scaleTen n 1 k).2 = (n : ℚ) * 10 ^ k := by
        rw [scaleTen_ratio, Nat.cast_one, div_one]
      rw [hbits] at h
      rw [← hscaled]
      refine roundsTo_of_nearestFloat ?_ ?_ hx hm h
      · exact Nat.mul_pos (Nat.pos_of_ne_zero hn) (Nat.pow_pos (by norm_num))
      · exact Nat.mul_pos one_pos (Nat.pow_pos (by norm_num))

/-! ## §3 The decimal that is written -/

/-- The multiple of a power of ten that is nearest to a number. -/
def nearestUnits (m : ℕ) (e k : ℤ) : ℕ :=
  roundDiv (scaleTen (fractionOf m e).1 (fractionOf m e).2 (-k)).1
    (scaleTen (fractionOf m e).1 (fractionOf m e).2 (-k)).2

theorem abs_sub_nearestUnits (m : ℕ) (e k : ℤ) : |(m : ℚ) * 2 ^ e / 10 ^ k - nearestUnits m e k| ≤ 1 / 2 := by
  have hden : 0 < (scaleTen (fractionOf m e).1 (fractionOf m e).2 (-k)).2 :=
    Nat.mul_pos (fractionOf_den_pos m e) (Nat.pow_pos (by norm_num))
  have hnear := abs_sub_roundDiv (scaleTen (fractionOf m e).1 (fractionOf m e).2 (-k)).1 hden
  rw [scaleTen_ratio, fractionOf_ratio, zpow_neg, ← div_eq_mul_inv] at hnear
  exact hnear

/-- No multiple of the power of ten is nearer. -/
theorem abs_nearestUnits_le (m : ℕ) (e k : ℤ) (j : ℕ) :
    |(nearestUnits m e k : ℚ) * 10 ^ k - m * 2 ^ e| ≤ |(j : ℚ) * 10 ^ k - m * 2 ^ e| := by
  have hpow : (0 : ℚ) < 10 ^ k := by positivity
  have hunits : ∀ i : ℚ, |i * 10 ^ k - m * 2 ^ e| = 10 ^ k * |m * 2 ^ e / 10 ^ k - i| := by
    intro i
    rw [abs_sub_comm, ← abs_of_pos hpow, ← abs_mul, abs_of_pos hpow, mul_sub, mul_div_cancel₀ _ hpow.ne',
      mul_comm i]
  rw [hunits, hunits]
  refine mul_le_mul_of_nonneg_left ?_ hpow.le
  have hnear := abs_sub_nearestUnits m e k
  rcases eq_or_ne (nearestUnits m e k) j with heq | hne
  · rw [heq]
  · -- two multiples are one unit apart
    have hint : 1 ≤ |((nearestUnits m e k : ℤ) - j)| := Int.one_le_abs (sub_ne_zero.2 (by exact_mod_cast hne))
    have hapart : (1 : ℚ) ≤ |(nearestUnits m e k : ℚ) - j| := by exact_mod_cast hint
    have htri := abs_sub_le (nearestUnits m e k : ℚ) (m * 2 ^ e / 10 ^ k) j
    rw [abs_sub_comm (nearestUnits m e k : ℚ) (m * 2 ^ e / 10 ^ k)] at htri
    linarith

/-- A decimal with so many digits lies on the grid of the numbers with the same first digit, or is less than all of
these. -/
theorem exists_units_or_lt {count n : ℕ} (hn : n < 10 ^ count) (k x : ℤ) :
    (∃ j : ℕ, (n : ℚ) * 10 ^ k = j * 10 ^ (x + 1 - count)) ∨ (n : ℚ) * 10 ^ k < 10 ^ x := by
  -- a last digit behind the grid leaves no room for the first digit
  rcases le_or_gt (x + 1 - count) k with hle | hlt
  · left
    refine ⟨n * 10 ^ (k - (x + 1 - count)).toNat, ?_⟩
    rw [Nat.cast_mul, Nat.cast_pow, Nat.cast_ofNat, mul_assoc, ← zpow_natCast, ← zpow_add₀ (by norm_num)]
    congr 2
    omega
  · right
    have hnq : (n : ℚ) < 10 ^ count := by exact_mod_cast hn
    calc (n : ℚ) * 10 ^ k < 10 ^ count * 10 ^ k := mul_lt_mul_of_pos_right hnq (by positivity)
      _ = 10 ^ (count + k) := by rw [zpow_add₀ (by norm_num), zpow_natCast]
      _ ≤ 10 ^ x := zpow_le_zpow_right₀ (by norm_num) (by omega)

/-- The exponent of the last of the digits that are written. -/
def lastPlace (count m : ℕ) (e : ℤ) : ℤ := Int.log 10 ((m : ℚ) * 2 ^ e) + 1 - count

/-- The decimal that is written of a number: the nearest one with so many digits. -/
def significantValue (count m : ℕ) (e : ℤ) : ℚ :=
  nearestUnits m e (lastPlace count m e) * 10 ^ lastPlace count m e

section

variable {count m : ℕ} {e : ℤ}

/-- The digits before the last place are as many as are written. -/
theorem lastPlace_bounds (count : ℕ) (hm : 0 < m) :
    (10 : ℚ) ^ count * 10 ^ lastPlace count m e ≤ 10 * (m * 2 ^ e) ∧
      (m : ℚ) * 2 ^ e < 10 ^ count * 10 ^ lastPlace count m e := by
  have hq : (0 : ℚ) < m * 2 ^ e := by positivity
  have hpow : (10 : ℚ) ^ count * 10 ^ lastPlace count m e = 10 ^ (Int.log 10 ((m : ℚ) * 2 ^ e) + 1) := by
    rw [← zpow_natCast, ← zpow_add₀ (by norm_num), lastPlace]
    congr 1
    ring
  rw [hpow]
  constructor
  · rw [zpow_add_one₀ (by norm_num)]
    linarith [ten_pow_log_le hq]
  · exact_mod_cast Int.lt_zpow_succ_log_self (by norm_num : 1 < 10) ((m : ℚ) * 2 ^ e)

/-- The decimal that is written is as near as any other with so many digits. -/
theorem abs_significantValue_le (hcount : 0 < count) (hm : 0 < m) {n : ℕ} (hn : n < 10 ^ count) (k : ℤ) :
    |significantValue count m e - m * 2 ^ e| ≤ |(n : ℚ) * 10 ^ k - m * 2 ^ e| := by
  rcases exists_units_or_lt hn k (Int.log 10 ((m : ℚ) * 2 ^ e)) with ⟨j, hj⟩ | hlt
  · rw [hj]
    exact abs_nearestUnits_le m e _ j
  · -- the power of ten below the number is on the grid too, and nearer
    have hq : (0 : ℚ) < m * 2 ^ e := by positivity
    have hfirst := ten_pow_log_le hq
    have hgrid : ((10 ^ (count - 1) : ℕ) : ℚ) * 10 ^ lastPlace count m e = 10 ^ Int.log 10 ((m : ℚ) * 2 ^ e) := by
      rw [Nat.cast_pow, Nat.cast_ofNat, ← zpow_natCast, ← zpow_add₀ (by norm_num), lastPlace]
      congr 1
      omega
    have hnearest := abs_nearestUnits_le m e (lastPlace count m e) (10 ^ (count - 1))
    rw [hgrid] at hnearest
    refine hnearest.trans ?_
    rw [abs_of_nonpos (by linarith), abs_of_nonpos (by linarith)]
    linarith

/-- The decimals of a grid are further apart than the numbers. -/
theorem lt_unit (hdigits : 10 ^ count ≤ 2 ^ 52) (hm : 2 ^ 52 ≤ m) : (2 : ℚ) ^ e < 10 ^ lastPlace count m e := by
  have hlt := (lastPlace_bounds (e := e) count (lt_of_lt_of_le (by norm_num) hm)).2
  have hmq : (2 : ℚ) ^ 52 ≤ m := by exact_mod_cast hm
  have hdigitsq : (10 : ℚ) ^ count ≤ 2 ^ 52 := by exact_mod_cast hdigits
  have hpow : (0 : ℚ) < 10 ^ lastPlace count m e := by positivity
  have hle : (2 : ℚ) ^ 52 * 2 ^ e < 2 ^ 52 * 10 ^ lastPlace count m e :=
    calc (2 : ℚ) ^ 52 * 2 ^ e ≤ m * 2 ^ e := mul_le_mul_of_nonneg_right hmq (by positivity)
      _ < 10 ^ count * 10 ^ lastPlace count m e := hlt
      _ ≤ 2 ^ 52 * 10 ^ lastPlace count m e := mul_le_mul_of_nonneg_right hdigitsq hpow.le
  exact lt_of_mul_lt_mul_left hle (by positivity)

/-- Where another decimal is rounded to a number from above, what is written is not far below it: both are on the
grid. -/
theorem quarter_significantValue (hcount : 0 < count) (hdigits : 10 ^ count ≤ 2 ^ 52) (hm : 2 ^ 52 ≤ m) {n : ℕ}
    (hn : n < 10 ^ count) {k : ℤ} (hhalf : (n : ℚ) * 10 ^ k / 2 ^ e ≤ m + 1 / 2)
    (hquarter : m - 1 / 4 ≤ (n : ℚ) * 10 ^ k / 2 ^ e) : m - 1 / 4 ≤ significantValue count m e / 2 ^ e := by
  have hpow : (0 : ℚ) < 2 ^ e := by positivity
  have hmpos : 0 < m := lt_of_lt_of_le (by norm_num) hm
  have hq : (0 : ℚ) < m * 2 ^ e := by positivity
  have hnearest := abs_significantValue_le (e := e) hcount hmpos hn k
  have hgrid := exists_units_or_lt hn k (Int.log 10 ((m : ℚ) * 2 ^ e))
  have hfirst := ten_pow_log_le hq
  generalize (n : ℚ) * 10 ^ k = d at hhalf hquarter hnearest hgrid
  rw [div_le_iff₀ hpow, add_mul] at hhalf
  rw [le_div_iff₀ hpow, sub_mul] at hquarter
  rw [le_div_iff₀ hpow, sub_mul]
  by_contra hfar
  rw [not_le] at hfar
  rw [abs_of_neg (by linarith)] at hnearest
  rcases le_or_gt d (m * 2 ^ e) with hle | hgt
  · rw [abs_of_nonpos (by linarith)] at hnearest
    linarith
  · -- one decimal on each side, so that they are at least one unit apart
    rw [abs_of_pos (by linarith)] at hnearest
    rcases hgrid with ⟨j, hj⟩ | hlt
    · have hunit := lt_unit (e := e) hdigits hm
      have hplace : (0 : ℚ) < 10 ^ lastPlace count m e := by positivity
      change d = j * 10 ^ lastPlace count m e at hj
      have hless : (nearestUnits m e (lastPlace count m e) : ℚ) * 10 ^ lastPlace count m e <
          j * 10 ^ lastPlace count m e := by
        rw [← hj]
        change significantValue count m e < d
        linarith
      have hsucc : (nearestUnits m e (lastPlace count m e) : ℚ) + 1 ≤ j := by
        exact_mod_cast lt_of_mul_lt_mul_right hless hplace.le
      have hapart : significantValue count m e + 10 ^ lastPlace count m e ≤ d := by
        rw [hj, significantValue, ← add_one_mul]
        exact mul_le_mul_of_nonneg_right hsucc hplace.le
      linarith
    · linarith

/-- The decimal that is written is rounded to the number if any decimal with so many digits is. -/
theorem RoundsTo.significant (hcount : 0 < count) (hdigits : 10 ^ count ≤ 2 ^ 52) (hm : 0 < m) {n : ℕ}
    (hn : n < 10 ^ count) {k : ℤ} (h : RoundsTo m e (n * 10 ^ k)) : RoundsTo m e (significantValue count m e) := by
  have hpow : (0 : ℚ) < 2 ^ e := by positivity
  have hplaces : ∀ q : ℚ, |q / 2 ^ e - m| = |q - m * 2 ^ e| / 2 ^ e := by
    intro q
    rw [← abs_of_pos hpow, ← abs_div, abs_of_pos hpow, sub_div, mul_div_cancel_right₀ _ hpow.ne']
  have hle : |significantValue count m e / 2 ^ e - m| ≤ |(n : ℚ) * 10 ^ k / 2 ^ e - m| := by
    rw [hplaces, hplaces]
    exact div_le_div_of_nonneg_right (abs_significantValue_le hcount hm hn k) hpow.le
  -- moving closer keeps what distance decides, and leaves the quarter below a power of two
  obtain ⟨hnear, hodd, hquarter⟩ := (roundsTo_iff hm).1 h
  refine (roundsTo_iff hm).2 ⟨hle.trans hnear, fun hne => hle.trans_lt (hodd hne), ?_⟩
  intro hpower he
  have hmq : (m : ℚ) = 2 ^ 52 := by exact_mod_cast hpower
  rw [← hmq] at hquarter ⊢
  exact quarter_significantValue hcount hdigits hpower.ge hn (by linarith [(abs_le.1 hnear).2]) (hquarter hpower he)

end

/-! ## §4 The text of a number -/

theorem length_toDigits {n count : ℕ} (hlow : 10 ^ (count - 1) ≤ n) (hhigh : n < 10 ^ count) :
    (Nat.toDigits 10 n).length = count := by
  have hn : n ≠ 0 := (lt_of_lt_of_le (Nat.pow_pos (by norm_num)) hlow).ne'
  have hcount : 0 < count := by
    refine Nat.pos_of_ne_zero ?_
    rintro rfl
    omega
  have hle := (Nat.length_toDigits_le_iff (by norm_num) hcount).2 hhigh
  have hlt := lt_of_le_of_lt hlow (lt_pow_digitCount n)
  rw [digitCount, if_neg hn] at hlt
  have hge := (Nat.pow_lt_pow_iff_right (by norm_num)).1 hlt
  omega

section

variable {count m : ℕ} {e : ℤ}

/-- The nearest decimal has all its digits, and one more where it is rounded up to the next power of ten. -/
theorem nearestUnits_bounds (hcount : 0 < count) (hm : 0 < m) :
    10 ^ (count - 1) ≤ nearestUnits m e (lastPlace count m e) ∧
      nearestUnits m e (lastPlace count m e) ≤ 10 ^ count := by
  obtain ⟨hlow, hhigh⟩ := lastPlace_bounds (e := e) count hm
  have hplace : (0 : ℚ) < 10 ^ lastPlace count m e := by positivity
  have hnear := abs_le.1 (abs_sub_nearestUnits m e (lastPlace count m e))
  have hten : (10 : ℚ) ^ count = 10 * 10 ^ (count - 1) := by rw [← pow_succ', Nat.sub_add_cancel hcount]
  rw [hten, mul_assoc] at hlow
  rw [← div_lt_iff₀ hplace] at hhigh
  have hleast := (le_div_iff₀ hplace).2 (le_of_mul_le_mul_left hlow (by norm_num))
  constructor
  · have hlt : (10 : ℚ) ^ (count - 1) < nearestUnits m e (lastPlace count m e) + 1 := by linarith [hnear.2]
    have hltNat : 10 ^ (count - 1) < nearestUnits m e (lastPlace count m e) + 1 := by exact_mod_cast hlt
    omega
  · have hlt : (nearestUnits m e (lastPlace count m e) : ℚ) < 10 ^ count + 1 := by linarith [hnear.1]
    have hltNat : nearestUnits m e (lastPlace count m e) < 10 ^ count + 1 := by exact_mod_cast hlt
    omega

/-- The digits that are written are those of the nearest decimal. -/
theorem significantDigits_eq (count : ℕ) (hm : 0 < m) :
    significantDigits count (fractionOf m e).1 (fractionOf m e).2 =
      if nearestUnits m e (lastPlace count m e) = 10 ^ count then
        (Nat.toDigits 10 (10 ^ (count - 1)), lastPlace count m e + 1 + count - 1)
      else (Nat.toDigits 10 (nearestUnits m e (lastPlace count m e)), lastPlace count m e + count - 1) := by
  have hnum : 0 < (fractionOf m e).1 := Nat.mul_pos hm (Nat.pow_pos two_pos)
  have hlog : log10Ratio (fractionOf m e).1 (fractionOf m e).2 = lastPlace count m e + count - 1 := by
    rw [log10Ratio_eq hnum (fractionOf_den_pos m e), fractionOf_ratio, lastPlace]
    ring
  have hscale : (count : ℤ) - 1 - (lastPlace count m e + count - 1) = -lastPlace count m e := by ring
  have hcarry : lastPlace count m e + count - 1 + 1 = lastPlace count m e + 1 + count - 1 := by ring
  rw [significantDigits]
  dsimp only
  rw [hlog, hscale, hcarry]
  rfl

/-- They are so many, and denote the nearest decimal. -/
theorem exists_significantDigits (hcount : 0 < count) (hm : 0 < m) :
    ∃ (n : ℕ) (k : ℤ), n < 10 ^ count ∧ n * 10 ^ k = significantValue count m e ∧
      leadingValue (dropTrailingZeros (significantDigits count (fractionOf m e).1 (fractionOf m e).2).1)
        (significantDigits count (fractionOf m e).1 (fractionOf m e).2).2 = n * 10 ^ k := by
  obtain ⟨hlow, hhigh⟩ := nearestUnits_bounds (e := e) hcount hm
  have hten : 10 ^ (count - 1) < 10 ^ count := Nat.pow_lt_pow_right (by norm_num) (by omega)
  have hvalue : ∀ n : ℕ, 10 ^ (count - 1) ≤ n → n < 10 ^ count → ∀ k : ℤ,
      leadingValue (dropTrailingZeros (Nat.toDigits 10 n)) (k + count - 1) = n * 10 ^ k := by
    intro n hle hlt k
    have hn : n ≠ 0 := (lt_of_lt_of_le (Nat.pow_pos (by norm_num)) hle).ne'
    rw [← leadingValue_dropTrailingZeros hn, length_toDigits hle hlt]
  rw [significantDigits_eq count hm]
  split
  · -- all nines are rounded up to a power of ten
    rename_i hcarry
    refine ⟨10 ^ (count - 1), lastPlace count m e + 1, hten, ?_, hvalue _ le_rfl hten _⟩
    rw [significantValue, hcarry, zpow_add_one₀ (by norm_num), mul_comm _ (10 : ℚ), ← mul_assoc, Nat.cast_pow,
      Nat.cast_pow, Nat.cast_ofNat, ← pow_succ, Nat.sub_add_cancel hcount]
  · rename_i hless
    have hlt := lt_of_le_of_ne hhigh hless
    exact ⟨_, _, hlt, rfl, hvalue _ hlow hlt _⟩

end

/-- A decimal that can be written with so many digits. -/
def IsShort (count : ℕ) (q : ℚ) : Prop := ∃ (n : ℕ) (k : ℤ), n < 10 ^ count ∧ n * 10 ^ k = q

/-- The first number is rounded to so many digits: no decimal of so many digits is nearer than the one of which the
second number is read. -/
def IsRounded (count : ℕ) (x y : Float) : Prop :=
  ∃ (negative : Bool) (m : ℕ) (e : ℤ) (n : ℕ) (k : ℤ), Binary.ofFloat x = .finite negative m e ∧
    nearestDecimal negative n k = y ∧ IsShort count (n * 10 ^ k) ∧
    ∀ q, IsShort count q → |(n : ℚ) * 10 ^ k - m * 2 ^ e| ≤ |q - m * 2 ^ e|

/-- A number that is read of some decimal of so many digits. -/
def HasDigits (count : ℕ) (x : Float) : Prop :=
  ∃ (negative : Bool) (n : ℕ) (k : ℤ), n < 10 ^ count ∧ nearestDecimal negative n k = x

section

variable {count : ℕ} {x : Float} {negative : Bool} {m : ℕ} {e : ℤ}

/-- The decimal that is written of a finite number is read. -/
theorem exists_readFloat?_of_finite (hcount : 0 < count) (h : Binary.ofFloat x = .finite negative m e) (hm : 0 < m) :
    ∃ (n : ℕ) (k : ℤ), readFloat? (significantText count x) = some (nearestDecimal negative n k) ∧
      n * 10 ^ k = significantValue count m e ∧ IsShort count (n * 10 ^ k) := by
  obtain ⟨i, j, hi, hgrid, hvalue⟩ := exists_significantDigits (e := e) hcount hm
  obtain ⟨n, k, hread, hnk⟩ := readFloat?_write (l := ⟨count, []⟩) (.inl rfl) negative
    (isDigits_significantDigits count (fractionOf m e).1 (fractionOf m e).2).dropTrailingZeros
    (significantDigits count (fractionOf m e).1 (fractionOf m e).2).2
  rw [hvalue] at hnk
  refine ⟨n, k, ?_, hnk.trans hgrid, i, j, hi, hnk.symm⟩
  simp only [significantText, h, if_neg hm.ne']
  exact hread

/-- Zeros are read with their sign. -/
theorem readFloat?_significantText_zero (count : ℕ) (h : Binary.ofFloat x = .finite negative 0 e) :
    readFloat? (significantText count x) = some x := by
  obtain ⟨n, k, hread, hvalue⟩ := readFloat?_write (l := ⟨count, []⟩) (.inl rfl) negative isDigits_zero 0
  simp only [significantText, h, if_true]
  rw [hread, nearestDecimal_of_zero h (hvalue.trans leadingValue_zero)]

/-- Of the text of a finite number the number is read that it is rounded to. -/
theorem exists_isRounded (hcount : 0 < count) (hx : Scalar.isFinite x = true) :
    ∃ y, readFloat? (significantText count x) = some y ∧ IsRounded count x y := by
  obtain ⟨negative, m, e, hfinite⟩ := exists_of_isFinite hx
  rcases Nat.eq_zero_or_pos m with rfl | hm
  · refine ⟨x, readFloat?_significantText_zero count hfinite, negative, 0, e, 0, 0, hfinite,
      nearestDecimal_of_zero hfinite (by simp), ⟨0, 0, Nat.pow_pos (by norm_num), rfl⟩, fun q _ => ?_⟩
    simp
  · obtain ⟨n, k, hread, hvalue, hshort⟩ := exists_readFloat?_of_finite hcount hfinite hm
    refine ⟨_, hread, negative, m, e, n, k, hfinite, rfl, hshort, ?_⟩
    rintro q ⟨i, j, hi, rfl⟩
    rw [hvalue]
    exact abs_significantValue_le hcount hm hi j

/-- Up to fifteen digits, the numbers that are read back of their significant digits are those that have no more
digits. -/
theorem readFloat?_significantText_iff (hcount : 0 < count) (hdigits : 10 ^ count ≤ 2 ^ 52)
    (hx : Scalar.isFinite x = true) : readFloat? (significantText count x) = some x ↔ HasDigits count x := by
  obtain ⟨negative, m, e, hfinite⟩ := exists_of_isFinite hx
  obtain ⟨hc, hbits⟩ := isCanonical_of_ofFloat hfinite
  rcases Nat.eq_zero_or_pos m with rfl | hm
  · refine iff_of_true (readFloat?_significantText_zero count hfinite) ?_
    exact ⟨negative, 0, 0, Nat.pow_pos (by norm_num), nearestDecimal_of_zero hfinite (by simp)⟩
  · obtain ⟨n, k, hread, hvalue, i, j, hi, hij⟩ := exists_readFloat?_of_finite hcount hfinite hm
    rw [hread, Option.some.injEq]
    constructor
    · -- the decimal that is written has so many digits itself
      intro heq
      have hrounds := (roundsTo_of_nearestDecimal hfinite hm heq).2
      rw [← hij] at hrounds
      exact ⟨negative, i, j, hi, (nearestDecimal_eq negative hc hm hrounds).trans hbits⟩
    · rintro ⟨sign, i', j', hi', heq⟩
      have hrounds := ((roundsTo_of_nearestDecimal hfinite hm heq).2).significant hcount hdigits hm hi'
      rw [← hvalue] at hrounds
      exact (nearestDecimal_eq negative hc hm hrounds).trans hbits

end

end FuzzyInference.Decimal
