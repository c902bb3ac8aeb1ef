import FuzzyInference.Error

/-!
# Outcomes

An operation on a state may stop with an error halfway. What it changed before stays changed, and what it
reported before stays reported. An *outcome* is the state that was reached, the events reported on the way,
and the error that stopped the operation, if any.

## Main statements

* `Outcome.andThen_assoc`: steps in sequence may be grouped either way
* `Outcome.each_append`: a list of steps is done part by part
-/

namespace FuzzyInference

/-- What an operation leaves behind. -/
structure Outcome (ω σ : Type) where
  state : σ
  events : List ω
  /-- The error that stopped the operation; `none` when it was completed. -/
  error : Option Error

namespace Outcome

variable {ω σ τ ι : Type}

/-- Nothing was done. -/
def done (s : σ) : Outcome ω σ := ⟨s, [], none⟩

/-- Nothing was done but a report. -/
def report (e : ω) (s : σ) : Outcome ω σ := ⟨s, [e], none⟩

/-- Stopped at once. -/
def stop (e : Error) (s : σ) : Outcome ω σ := ⟨s, [], some e⟩

/-- The operation was completed. -/
def isDone (o : Outcome ω σ) : Bool := o.error.isNone

/-- A further step, unless the operation was stopped. -/
def andThen (o : Outcome ω σ) (step : σ → Outcome ω σ) : Outcome ω σ :=
  match o.error with
  | some _ => o
  | none =>
    let next := step o.state
    ⟨next.state, o.events ++ next.events, next.error⟩

/-- The outcome for a larger state. -/
def map (f : σ → τ) (o : Outcome ω σ) : Outcome ω τ := ⟨f o.state, o.events, o.error⟩

/-- One step for each item, in order, until one is stopped. -/
def each (step : ι → σ → Outcome ω σ) : List ι → σ → Outcome ω σ
  | [], s => done s
  | i :: rest, s => (step i s).andThen (each step rest)

/-- The events and the error, without the state. -/
def result (o : Outcome ω σ) : Except Error Unit :=
  match o.error with
  | some e => .error e
  | none => .ok ()

@[simp] theorem andThen_stopped (o : Outcome ω σ) (step : σ → Outcome ω σ) {e : Error}
    (h : o.error = some e) : o.andThen step = o := by
  simp [andThen, h]

@[simp] theorem done_andThen (s : σ) (step : σ → Outcome ω σ) : (done s).andThen step = step s := by
  simp [andThen, done]

@[simp] theorem andThen_done (o : Outcome ω σ) : o.andThen done = o := by
  cases o with
  | mk s es e => cases e <;> simp [andThen, done]

/-- Steps in sequence may be grouped either way. -/
theorem andThen_assoc (o : Outcome ω σ) (f g : σ → Outcome ω σ) :
    (o.andThen f).andThen g = o.andThen fun s => (f s).andThen g := by
  cases o with
  | mk s es e =>
    cases e with
    | some e => simp [andThen]
    | none =>
      cases h : (f s).error <;> simp [andThen, h, List.append_assoc]

/-- A list of steps is done part by part. -/
theorem each_append (step : ι → σ → Outcome ω σ) (is js : List ι) (s : σ) :
    each step (is ++ js) s = (each step is s).andThen (each step js) := by
  induction is generalizing s with
  | nil => simp [each]
  | cons i is ih =>
    simp only [List.cons_append, each, andThen_assoc]
    congr 1
    funext s
    exact ih s

end Outcome

end FuzzyInference
