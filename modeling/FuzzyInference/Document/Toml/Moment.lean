import FuzzyInference.Document.Moment
import FuzzyInference.Document.Toml.Number

/-!
# Dates and times in TOML documents

A date has a year of four digits, a month and a day. A time of day has hours, minutes and seconds, and
perhaps a fraction of a second. A time that follows a date may end with its distance from universal time.

## Main definitions

* `date?`, `time?`, `distance?`
* `moment?`: the moment that starts here
-/

namespace FuzzyInference.Toml

open FuzzyInference.Decimal

/-- The number in exactly so many digits, and what follows them. -/
def fixedNumber? (width : Nat) (cs : List Char) : Option (Nat × List Char) :=
  let digits := cs.take width
  if digits.length = width && digits.all isBasicDigit then
    some (valueInBase 10 digits, cs.drop width)
  else none

/-- A date, and what follows it. -/
def date? (cs : List Char) : Option (Date × List Char) := do
  let (year, rest) ← fixedNumber? 4 cs
  let (month, rest) ← fixedNumber? 2 (← after? ['-'] rest)
  let (day, rest) ← fixedNumber? 2 (← after? ['-'] rest)
  let d : Date := ⟨year, month, day⟩
  if d.isValid then some (d, rest) else none

/-- Hours and minutes, and what follows them. -/
def clock? (cs : List Char) : Option (Nat × Nat × List Char) := do
  let (hour, rest) ← fixedNumber? 2 cs
  let (minute, rest) ← fixedNumber? 2 (← after? [':'] rest)
  if hour < 24 && minute < 60 then some (hour, minute, rest) else none

/-- Digits after a point as millionths, and what follows them. Digits after the sixth are dropped. -/
def millionths (cs : List Char) : Nat × List Char :=
  let (digits, rest) := fractionPart cs
  let six := digits.take 6
  (valueInBase 10 (six ++ List.replicate (6 - six.length) '0'), rest)
where
  /-- The digits after a point, if there are any. -/
  fractionPart (cs : List Char) : List Char × List Char :=
    match cs with
    | '.' :: rest =>
      let digits := rest.takeWhile isBasicDigit
      if digits.isEmpty then ([], cs) else (digits, rest.dropWhile isBasicDigit)
    | cs => ([], cs)

/-- A time of day, and what follows it. -/
def time? (cs : List Char) : Option (TimeOfDay × List Char) := do
  let (hour, minute, rest) ← clock? cs
  let (second, rest) ← fixedNumber? 2 (← after? [':'] rest)
  let (micros, rest) := millionths rest
  if second < 60 then some (⟨hour, minute, second, micros⟩, rest) else none

/-- The distance from universal time, and what follows it. -/
def distance? (cs : List Char) : Option (Distance × List Char) :=
  match cs with
  | [] => none
  | c :: rest =>
    if c = 'Z' || c = 'z' then some (.universal, rest)
    else if c = '+' || c = '-' then
      (clock? rest).map fun (hours, minutes, rest) => (⟨decide (c = '-'), hours, minutes⟩, rest)
    else none

/-- The time that may follow a date, with its distance, and what follows both. -/
def timeOfDate? (cs : List Char) : Option (TimeOfDay × Option Distance × List Char) :=
  match cs with
  | [] => none
  | c :: rest =>
    if c = 'T' || c = 't' || c = ' ' then do
      let (t, rest) ← time? rest
      match distance? rest with
      | some (d, rest) => return (t, some d, rest)
      | none => return (t, none, rest)
    else none

/-- A moment, and what follows it. -/
def moment? (cs : List Char) : Option (Moment × List Char) :=
  match date? cs with
  | some (d, rest) =>
    match timeOfDate? rest with
    | some (t, distance, rest) => some (.dateTime d t distance, rest)
    | none => some (.date d, rest)
  | none => (time? cs).map fun (t, rest) => (.time t, rest)

end FuzzyInference.Toml
