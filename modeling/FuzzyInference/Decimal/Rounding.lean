/-!
# Rounding a quotient

Quotients of natural numbers rounded to the nearest natural number, a half to the even neighbour, and
their logarithms rounded down. All texts of numbers and all readings of such texts come down to these.

## Main statements

* `Decimal.roundDiv_near`: the rounded quotient is at most one half away from the quotient
-/

namespace FuzzyInference.Decimal

/-- The natural number nearest to `num / den`, the even one of two. -/
def roundDiv (num den : Nat) : Nat :=
  let q := num / den
  let r := num % den
  if 2 * r < den then q else if den < 2 * r then q + 1 else q + q % 2

/-- The rounded quotient is at most one half away from the quotient. -/
theorem roundDiv_near (num den : Nat) (h : 0 < den) :
    2 * num ≤ 2 * (roundDiv num den * den) + den ∧ 2 * (roundDiv num den * den) ≤ 2 * num + den := by
  have hdiv : den * (num / den) + num % den = num := Nat.div_add_mod num den
  have hmod : num % den < den := Nat.mod_lt num h
  have hcomm : num / den * den = den * (num / den) := Nat.mul_comm _ _
  have hpar : num / den % 2 = 0 ∨ num / den % 2 = 1 := by omega
  unfold roundDiv
  dsimp only
  split
  · omega
  · split
    · rw [Nat.add_mul]; omega
    · rcases hpar with hp | hp <;> rw [hp, Nat.add_mul] <;> omega

/-- The powers of two. -/
abbrev twoTo (n : Nat) : Nat := Nat.pow 2 n

/-- The powers of ten. -/
abbrev tenTo (n : Nat) : Nat := Nat.pow 10 n

/-- The number of decimal digits of a positive number, and zero for zero. -/
def digitCount (n : Nat) : Nat := if n = 0 then 0 else (Nat.toDigits 10 n).length

/-- The greatest `k` with `2 ^ k ≤ num / den`, for positive numbers. -/
def log2Ratio (num den : Nat) : Int :=
  let e : Int := (num.log2 : Int) - den.log2
  if den * twoTo e.toNat ≤ num * twoTo (-e).toNat then e else e - 1

/-- The greatest `k` with `10 ^ k ≤ num / den`, for positive numbers. -/
def log10Ratio (num den : Nat) : Int :=
  if den ≤ num then (digitCount (num / den) : Int) - 1
  else
    let n := digitCount (den / num)
    if den ≤ num * tenTo (n - 1) then -((n : Int) - 1) else -(n : Int)

/-- The fraction `num / den` times a power of ten, as a fraction. -/
def scaleTen (num den : Nat) (k : Int) : Nat × Nat :=
  (num * tenTo k.toNat, den * tenTo (-k).toNat)

end FuzzyInference.Decimal
