/-!
# Assignments

An assignment gives values to keys. It is a list of pairs in which every key has one place: of several
values for one key the last counts, at the place of the first. Which keys count as one is up to their
comparison `==`; the key that came first is the one that is kept.

## Main definitions

* `putValue`: gives a key a value
* `lastValues`: the assignment that a list of pairs makes

## Main statements

* `keys_lastValues`: every key keeps one place
* `lookup_putValue`: putting a value changes what is found under its key, and nothing else
-/

namespace FuzzyInference

variable {κ α : Type} [BEq κ]

/-- Gives a key a value, at its place or at the end. -/
def putValue (p : κ × α) : List (κ × α) → List (κ × α)
  | [] => [p]
  | q :: rest => if q.1 == p.1 then (q.1, p.2) :: rest else q :: putValue p rest

/-- Every key once, at its first place and with its last value. -/
def lastValues (ps : List (κ × α)) : List (κ × α) := ps.foldl (fun acc p => putValue p acc) []

/-- A key that has a value keeps the places of all keys. -/
theorem keys_putValue_of_any (p : κ × α) {qs : List (κ × α)}
    (h : (qs.map Prod.fst).any (· == p.1) = true) : (putValue p qs).map Prod.fst = qs.map Prod.fst := by
  induction qs with
  | nil => simp at h
  | cons q rest ih =>
    cases hq : q.1 == p.1 with
    | true => simp [putValue, hq]
    | false =>
      have h' : (rest.map Prod.fst).any (· == p.1) = true := by
        simpa only [List.map_cons, List.any_cons, hq, Bool.false_or] using h
      simp [putValue, hq, ih h']

/-- A key without a value is put at the end. -/
theorem putValue_of_not_any (p : κ × α) {qs : List (κ × α)}
    (h : (qs.map Prod.fst).any (· == p.1) = false) : putValue p qs = qs ++ [p] := by
  induction qs with
  | nil => rfl
  | cons q rest ih =>
    rw [List.map_cons, List.any_cons, Bool.or_eq_false_iff] at h
    simp [putValue, h.1, ih h.2]

/-- Keys that differ from all keys before them do so when a value is put. -/
theorem pairwise_putValue (p : κ × α) {qs : List (κ × α)}
    (h : (qs.map Prod.fst).Pairwise fun a b => (a == b) = false) :
    ((putValue p qs).map Prod.fst).Pairwise fun a b => (a == b) = false := by
  cases hp : (qs.map Prod.fst).any (· == p.1) with
  | true =>
    rw [keys_putValue_of_any p hp]
    exact h
  | false =>
    rw [putValue_of_not_any p hp, List.map_append, List.pairwise_append]
    refine ⟨h, by simp, ?_⟩
    intro a ha b hb
    simp only [List.map_cons, List.map_nil, List.mem_singleton] at hb
    have hnone := List.any_eq_false.1 hp a ha
    rw [hb]
    simpa using hnone

/-- Every key keeps one place. -/
theorem keys_lastValues (ps : List (κ × α)) :
    ((lastValues ps).map Prod.fst).Pairwise fun a b => (a == b) = false := by
  have step : ∀ (ps acc : List (κ × α)),
      ((acc.map Prod.fst).Pairwise fun a b => (a == b) = false) →
      ((ps.foldl (fun acc p => putValue p acc) acc).map Prod.fst).Pairwise
        fun a b => (a == b) = false := by
    intro ps
    induction ps with
    | nil => exact fun acc h => h
    | cons p rest ih => exact fun acc h => ih _ (pairwise_putValue p h)
  exact step ps [] (by simp)

/-- Putting a value changes what is found under its key, and nothing else. -/
theorem lookup_putValue [LawfulBEq κ] (p : κ × α) (qs : List (κ × α)) (key : κ) :
    (putValue p qs).lookup key = if key == p.1 then some p.2 else qs.lookup key := by
  induction qs with
  | nil =>
    rw [putValue, List.lookup_cons, List.lookup_nil]
    cases key == p.1 <;> rfl
  | cons q rest ih =>
    cases hq : q.1 == p.1 with
    | true =>
      have e : q.1 = p.1 := eq_of_beq hq
      rw [putValue, if_pos hq, List.lookup_cons, List.lookup_cons, e]
      cases key == p.1 <;> rfl
    | false =>
      rw [putValue, if_neg (by simp [hq]), List.lookup_cons, List.lookup_cons, ih]
      cases hk : key == q.1 with
      | false => rfl
      | true =>
        have e : key = q.1 := eq_of_beq hk
        simp [e, hq]

end FuzzyInference
