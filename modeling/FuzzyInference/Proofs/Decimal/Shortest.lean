import FuzzyInference.Proofs.Decimal.Nearest
import FuzzyInference.Proofs.Decimal.Written

/-!
# The fewest digits

The shortest text of a number has the fewest digits that are rounded to the number. The search for them takes
ever finer grids of multiples of a power of ten, and from each the two neighbours of the number. The distance
between the neighbours shrinks below the distance between the halfway points around the number at seventeen
digits at the latest, so that one of the neighbours lies between these points.

The plan of this module:

* neighbours on a grid;
* the search;
* the text of a number is read as this number.

## Main statements

* `inside_of_gridNeighbour?`, `exists_gridNeighbour?`: what is found on a grid, and when
* `roundsTo_shortestSearch`: the digits that the search ends with are rounded to the number
* `readFloat?_shortestText`: the shortest text is read back
-/

namespace FuzzyInference.Decimal

open Text

/-! ## §1 Neighbours on a grid -/

/-- A multiple of a power of ten in quarters of a last place. -/
def gridPoint (e k : ℤ) (n : ℕ) : ℚ := n * 10 ^ k / 2 ^ (e - 2)

/-- The steps of a grid over a common denominator with the quarters. -/
def gridStep (e k : ℤ) : ℕ := tenTo k.toNat * (fractionOf 1 (e - 2)).2

/-- A quarter of a last place over this denominator. -/
def gridScale (e k : ℤ) : ℕ := (fractionOf 1 (e - 2)).1 * tenTo (-k).toNat

theorem gridStep_pos (e k : ℤ) : 0 < gridStep e k :=
  Nat.mul_pos (Nat.pow_pos (by norm_num)) (fractionOf_den_pos 1 _)

theorem gridScale_pos (e k : ℤ) : 0 < gridScale e k :=
  Nat.mul_pos (Nat.mul_pos one_pos (Nat.pow_pos two_pos)) (Nat.pow_pos (by norm_num))

theorem gridPoint_eq (e k : ℤ) (n : ℕ) : gridPoint e k n = (n * gridStep e k : ℕ) / gridScale e k := by
  have hquarter := fractionOf_ratio 1 (e - 2)
  rw [Nat.cast_one, one_mul] at hquarter
  rw [gridPoint, ← hquarter, zpow_eq_div 10 k, gridStep, gridScale]
  simp only [Nat.pow_eq]
  push_cast
  field_simp

/-- The point of a grid lies in an interval of quarters. -/
def gridInside (e k : ℤ) (interval : ℕ × ℕ × Bool) (n : ℕ) : Bool :=
  let v := n * gridStep e k
  if interval.2.2 then interval.1 * gridScale e k ≤ v && v ≤ interval.2.1 * gridScale e k
  else interval.1 * gridScale e k < v && v < interval.2.1 * gridScale e k

theorem gridInside_iff {e k : ℤ} {interval : ℕ × ℕ × Bool} {n : ℕ} :
    gridInside e k interval n = true ↔ Inside interval (gridPoint e k n) := by
  have hscale : (0 : ℚ) < gridScale e k := by exact_mod_cast gridScale_pos e k
  rw [gridPoint_eq, gridInside, Inside]
  split
  · rw [Bool.and_eq_true, decide_eq_true_eq, decide_eq_true_eq, le_div_iff₀ hscale, div_le_iff₀ hscale]
    exact_mod_cast Iff.rfl
  · rw [Bool.and_eq_true, decide_eq_true_eq, decide_eq_true_eq, lt_div_iff₀ hscale, div_lt_iff₀ hscale]
    exact_mod_cast Iff.rfl

/-- The greatest point of a grid that is not above a number. -/
def gridBelow (m : ℕ) (e k : ℤ) : ℕ := 4 * m * gridScale e k / gridStep e k

/-- The neighbours of a number lie around it. -/
theorem gridBelow_bounds (m : ℕ) (e k : ℤ) :
    gridPoint e k (gridBelow m e k) ≤ 4 * m ∧ 4 * m < gridPoint e k (gridBelow m e k + 1) := by
  have hscale : (0 : ℚ) < gridScale e k := by exact_mod_cast gridScale_pos e k
  rw [gridPoint_eq, gridPoint_eq, div_le_iff₀ hscale, lt_div_iff₀ hscale]
  constructor
  · exact_mod_cast Nat.div_mul_le_self _ _
  · have hlt := Nat.lt_mul_div_succ (4 * m * gridScale e k) (gridStep_pos e k)
    rw [mul_comm (gridStep e k)] at hlt
    exact_mod_cast hlt

/-- The neighbour that is found lies in the interval. -/
theorem inside_of_gridNeighbour? {m n : ℕ} {e k : ℤ} {interval : ℕ × ℕ × Bool}
    (h : gridNeighbour? m e k interval = some n) : Inside interval (gridPoint e k n) := by
  rw [← gridInside_iff]
  unfold gridNeighbour? at h
  dsimp only [fractionOf] at h
  split at h
  · rename_i hbelow habove
    split at h
    · cases h
      exact hbelow
    · split at h
      · cases h
        exact habove
      · cases h
        -- the even one of two that are equally near
        show gridInside e k interval (gridBelow m e k + gridBelow m e k % 2) = true
        rcases Nat.mod_two_eq_zero_or_one (gridBelow m e k) with heven | hodd
        · rw [heven]
          exact hbelow
        · rw [hodd]
          exact habove
  · rename_i hbelow _
    cases h
    exact hbelow
  · rename_i _ habove
    cases h
    exact habove
  · cases h

/-- No neighbour is found where both lie outside. -/
theorem outside_of_gridNeighbour? {m : ℕ} {e k : ℤ} {interval : ℕ × ℕ × Bool}
    (h : gridNeighbour? m e k interval = none) : ¬Inside interval (gridPoint e k (gridBelow m e k)) ∧
      ¬Inside interval (gridPoint e k (gridBelow m e k + 1)) := by
  rw [← gridInside_iff, ← gridInside_iff, Bool.not_eq_true, Bool.not_eq_true]
  unfold gridNeighbour? at h
  dsimp only [fractionOf] at h
  split at h
  · split at h
    · cases h
    · split at h <;> cases h
  · cases h
  · cases h
  · rename_i hbelow habove
    exact ⟨hbelow, habove⟩

/-- A grid that is finer than an interval around the number has a point inside. -/
theorem exists_gridNeighbour? {m : ℕ} {e k : ℤ} {interval : ℕ × ℕ × Bool} (hlow : interval.1 < 4 * m)
    (hhigh : 4 * m < interval.2.1) (hstep : (10 : ℚ) ^ k / 2 ^ (e - 2) < interval.2.1 - interval.1) :
    ∃ n, gridNeighbour? m e k interval = some n := by
  cases hfound : gridNeighbour? m e k interval with
  | some n => exact ⟨n, rfl⟩
  | none =>
    exfalso
    obtain ⟨hle, hlt⟩ := gridBelow_bounds m e k
    obtain ⟨hbelow, habove⟩ := outside_of_gridNeighbour? hfound
    rw [Inside] at hbelow habove
    have hlowq : (interval.1 : ℚ) < 4 * m := by exact_mod_cast hlow
    have hhighq : (4 * m : ℚ) < interval.2.1 := by exact_mod_cast hhigh
    have hdist : gridPoint e k (gridBelow m e k + 1) =
        gridPoint e k (gridBelow m e k) + 10 ^ k / 2 ^ (e - 2) := by
      rw [gridPoint, gridPoint]
      push_cast
      ring
    -- both neighbours lie outside, so the interval fits between them
    have hends : gridPoint e k (gridBelow m e k) ≤ interval.1 ∧
        interval.2.1 ≤ gridPoint e k (gridBelow m e k + 1) := by
      split at hbelow
      · rename_i hclosed
        rw [if_pos hclosed] at habove
        constructor
        · by_contra hgt
          exact hbelow ⟨by linarith, by linarith⟩
        · by_contra hgt
          exact habove ⟨by linarith, by linarith⟩
      · rename_i hopen
        rw [if_neg hopen] at habove
        constructor
        · by_contra hgt
          exact hbelow ⟨by linarith, by linarith⟩
        · by_contra hgt
          exact habove ⟨by linarith, by linarith⟩
    linarith [hends.1, hends.2]

/-! ## §2 The search -/

/-- A search that reaches a grid with a point inside ends with a point inside. -/
theorem inside_shortestSearch {m : ℕ} {e x : ℤ} {interval : ℕ × ℕ × Bool} {last : ℕ}
    (hlast : ∃ n, gridNeighbour? m e (x + 1 - last) interval = some n) (fuel count : ℕ) (hcount : count ≤ last)
    (hfuel : last < count + fuel) :
    Inside interval (gridPoint e (shortestSearch m e x interval fuel count).2
      (shortestSearch m e x interval fuel count).1) := by
  induction fuel generalizing count with
  | zero => omega
  | succ fuel ih =>
    rw [shortestSearch]
    cases hn : gridNeighbour? m e (x + 1 - count) interval with
    | some n => exact inside_of_gridNeighbour? hn
    | none =>
      -- nothing was found on this grid, so the last one is finer
      have hne : count ≠ last := by
        rintro rfl
        obtain ⟨n, hsome⟩ := hlast
        cases hn.symm.trans hsome
      exact ih (count + 1) (by omega) (by omega)

/-- The interval is wider than seventeen digits are apart. -/
theorem step_lt_width {m : ℕ} {e : ℤ} (hm : 0 < m) (hm53 : m < 2 ^ 53) :
    (4 : ℚ) * m / 10 ^ 16 < (roundingInterval m e).2.1 - (roundingInterval m e).1 := by
  unfold roundingInterval
  dsimp only
  split
  · rename_i hpower
    simp only [Bool.and_eq_true, decide_eq_true_eq] at hpower
    rw [hpower.1]
    norm_num
  · have hmq : (m : ℚ) < 2 ^ 53 := by exact_mod_cast hm53
    have hlt : (4 : ℚ) * m / 10 ^ 16 < 4 := by
      rw [div_lt_iff₀ (by positivity)]
      linarith
    rw [Nat.cast_sub (by omega)]
    push_cast
    linarith

/-- Seventeen digits suffice. -/
theorem exists_gridNeighbour?_seventeen {m : ℕ} {e : ℤ} (hm : 0 < m) (hm53 : m < 2 ^ 53) :
    ∃ n, gridNeighbour? m e (Int.log 10 ((m : ℚ) * 2 ^ e) + 1 - (17 : ℕ)) (roundingInterval m e) = some n := by
  have hpow : (0 : ℚ) < 2 ^ e := by positivity
  have hlog : (10 : ℚ) ^ Int.log 10 ((m : ℚ) * 2 ^ e) ≤ m * 2 ^ e := ten_pow_log_le (by positivity)
  refine exists_gridNeighbour? ?_ ?_ (lt_of_le_of_lt ?_ (step_lt_width hm hm53))
  · unfold roundingInterval
    dsimp only
    split <;> omega
  · unfold roundingInterval
    dsimp only
    omega
  · have hstep : (10 : ℚ) ^ (Int.log 10 ((m : ℚ) * 2 ^ e) + 1 - (17 : ℕ)) =
        10 ^ Int.log 10 ((m : ℚ) * 2 ^ e) / 10 ^ 16 := by
      rw [Nat.cast_ofNat, show ∀ l : ℤ, l + 1 - 17 = l - 16 by intro l; ring, zpow_sub₀ (by norm_num)]
      norm_num
    have hle : (10 : ℚ) ^ Int.log 10 ((m : ℚ) * 2 ^ e) / 2 ^ e ≤ m := (div_le_iff₀ hpow).2 hlog
    rw [hstep, RoundsTo.quarters, div_right_comm, mul_div_assoc]
    gcongr

/-- The digits that the search ends with are rounded to the number. -/
theorem roundsTo_shortestSearch {m : ℕ} {e : ℤ} (hm : 0 < m) (hm53 : m < 2 ^ 53) {n : ℕ} {k : ℤ}
    (h : shortestSearch m e (log10Ratio (fractionOf m e).1 (fractionOf m e).2) (roundingInterval m e) 17 1 =
      (n, k)) : RoundsTo m e (n * 10 ^ k) := by
  have hnum : 0 < (fractionOf m e).1 := Nat.mul_pos hm (Nat.pow_pos two_pos)
  rw [log10Ratio_eq hnum (fractionOf_den_pos m e), fractionOf_ratio] at h
  have hinside := inside_shortestSearch (exists_gridNeighbour?_seventeen (e := e) hm hm53) 17 1 (by norm_num)
    (by norm_num)
  rw [h] at hinside
  exact hinside

/-! ## §3 The text of a number -/

/-- Digits without the zeros at their end have the same value. -/
theorem leadingValue_dropTrailingZeros {n : ℕ} (hn : n ≠ 0) (k : ℤ) :
    leadingValue (dropTrailingZeros (Nat.toDigits 10 n)) (k + (Nat.toDigits 10 n).length - 1) = n * 10 ^ k := by
  have hvalue : valueOfDigits (Nat.toDigits 10 n) = n := valueOfDigits_toDigits n
  obtain ⟨j, hj⟩ : ∃ j, Nat.toDigits 10 n = dropTrailingZeros (Nat.toDigits 10 n) ++ List.replicate j '0' :=
    exists_dropTrailingZeros (by rwa [hvalue])
  have hbasic := ((isDigits_toDigits n).dropTrailingZeros).basic
  have hlength := congrArg List.length hj
  rw [List.length_append, List.length_replicate] at hlength
  rw [hj, valueOfDigits_append_zeros hbasic] at hvalue
  have hsum : k + (Nat.toDigits 10 n).length - 1 + 1 - (dropTrailingZeros (Nat.toDigits 10 n)).length =
      j + k := by
    omega
  have hnq : (n : ℚ) = valueOfDigits (dropTrailingZeros (Nat.toDigits 10 n)) * 10 ^ j := by
    exact_mod_cast hvalue.symm
  rw [leadingValue, hsum, zpow_add₀ (by norm_num), zpow_natCast, ← mul_assoc, ← hnq]

/-- The digits of a number and the exponent of the first of them are rounded to the number. -/
theorem roundsTo_shortestDigits {m : ℕ} {e : ℤ} (hc : IsCanonical m e) (hm : 0 < m) :
    IsDigits (shortestDigits m e).1 ∧
      RoundsTo m e (leadingValue (shortestDigits m e).1 (shortestDigits m e).2) := by
  unfold shortestDigits
  dsimp only
  generalize hsearch : shortestSearch m e _ (roundingInterval m e) 17 1 = found
  obtain ⟨n, k⟩ := found
  have hrounds := roundsTo_shortestSearch hm hc.lt hsearch
  have hn : n ≠ 0 := by
    rintro rfl
    have hbounds := (hrounds.bounds hc hm).1
    rw [Nat.cast_zero, zero_mul] at hbounds
    exact absurd hbounds (not_le.2 (by positivity))
  refine ⟨(isDigits_toDigits n).dropTrailingZeros, ?_⟩
  rwa [leadingValue_dropTrailingZeros hn]

theorem leadingValue_zero : leadingValue ['0'] 0 = 0 := by
  rw [leadingValue, show valueOfDigits ['0'] = 0 from rfl, Nat.cast_zero, zero_mul]

/-- Digits of value zero denote the zero with the sign that is given. -/
theorem nearestDecimal_of_zero {x : Float} {negative : Bool} {e : ℤ} (h : Binary.ofFloat x = .finite negative 0 e)
    {n : ℕ} {k : ℤ} (hvalue : (n : ℚ) * 10 ^ k = 0) : nearestDecimal negative n k = x := by
  obtain ⟨hc, hx⟩ := isCanonical_of_ofFloat h
  have hdigits : n = 0 := by
    rw [mul_eq_zero] at hvalue
    exact_mod_cast hvalue.resolve_right (by positivity)
  -- zeros have the bits of no magnitude, only a sign
  have hleast : e = -1074 := hc.normal.resolve_left (by norm_num)
  rw [nearestDecimal, hdigits, if_pos (by simp), ← hx, hleast]
  rfl

/-- The shortest text of a finite number is a numeral that is rounded to the number. -/
theorem exists_numeral_shortestText {x : Float} {negative : Bool} {m : ℕ} {e : ℤ}
    (h : Binary.ofFloat x = .finite negative m e) :
    ∃ n : Numeral, shortestText x = String.ofList (if negative then '-' :: n.chars else n.chars) ∧
      nearestDecimal negative n.digits n.lastExponent = x := by
  have hplain : shortestLayout.IsPlain := .inr rfl
  obtain ⟨hc, hx⟩ := isCanonical_of_ofFloat h
  simp only [shortestText, h]
  split
  · rename_i hzero
    subst hzero
    obtain ⟨n, hn, hvalue⟩ := Layout.exists_numeral hplain negative isDigits_zero 0
    refine ⟨n, hn, ?_⟩
    exact nearestDecimal_of_zero h (hvalue.trans leadingValue_zero)
  · rename_i hne
    have hm : 0 < m := Nat.pos_of_ne_zero hne
    obtain ⟨hdigits, hrounds⟩ := roundsTo_shortestDigits hc hm
    obtain ⟨n, hn, hvalue⟩ := Layout.exists_numeral hplain negative hdigits (shortestDigits m e).2
    refine ⟨n, hn, ?_⟩
    rw [← hvalue] at hrounds
    rw [nearestDecimal_eq negative hc hm hrounds, hx]

/-- The shortest text of a finite number is read back as this number. -/
theorem readFloat?_shortestText {x : Float} {negative : Bool} {m : ℕ} {e : ℤ}
    (h : Binary.ofFloat x = .finite negative m e) : readFloat? (shortestText x) = some x := by
  obtain ⟨n, hn, hnearest⟩ := exists_numeral_shortestText h
  rw [hn, n.readFloat?_eq negative, hnearest]

end FuzzyInference.Decimal
