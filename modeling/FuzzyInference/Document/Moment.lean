/-!
# Dates and times

A moment is a date, a time of day, or a date with a time and perhaps its distance from universal time. A
model has no use for moments, but a document may hold them, and messages show them.

Two moments count as one when they are of one kind and the same. Dates with times whose distances from
universal time are known are the same when they fall on one instant.

## Main definitions

* `Date`, `TimeOfDay`, `Distance`, `Moment`
* `Moment.text`: a moment in a message
* `Moment.shown`: a moment inside a list
* `Moment.same`: the moments that count as one
-/

namespace FuzzyInference

/-- The number with zeros before it, up to a width. -/
def paddedText (width n : Nat) : String :=
  let digits := Nat.toDigits 10 n
  String.ofList (List.replicate (width - digits.length) '0' ++ digits)

/-- A call of a name with arguments, as values inside a list are shown. -/
def callText (name : String) (arguments : List String) : String :=
  name ++ "(" ++ String.intercalate ", " arguments ++ ")"

/-! ## §1 Dates -/

/-- A day of the calendar. -/
structure Date where
  year : Nat
  month : Nat
  day : Nat
deriving DecidableEq, Inhabited, Repr

namespace Date

/-- Every fourth year has one more day, but of the full centuries only every fourth one. -/
def isLeap (year : Nat) : Bool := year % 4 = 0 && (year % 100 != 0 || year % 400 = 0)

/-- The number of days of a month. -/
def daysIn (year month : Nat) : Nat :=
  if month = 2 then (if isLeap year then 29 else 28)
  else if month = 4 || month = 6 || month = 9 || month = 11 then 30
  else 31

/-- The calendar has that day. -/
def isValid (d : Date) : Bool :=
  1 ≤ d.year && 1 ≤ d.month && d.month ≤ 12 && 1 ≤ d.day && d.day ≤ daysIn d.year d.month

/-- The number of days of the months of a year before the given one. -/
def daysBefore (year : Nat) : Nat → Nat
  | 0 | 1 => 0
  | month + 2 => daysBefore year (month + 1) + daysIn year (month + 1)

/-- The number of days from the start of the calendar to the end of the day. -/
def ordinal (d : Date) : Nat :=
  let years := d.year - 1
  365 * years + years / 4 - years / 100 + years / 400 + daysBefore d.year d.month + d.day

def text (d : Date) : String :=
  paddedText 4 d.year ++ "-" ++ paddedText 2 d.month ++ "-" ++ paddedText 2 d.day

/-- The numbers of a date. -/
def numbers (d : Date) : List Nat := [d.year, d.month, d.day]

end Date

/-! ## §2 Times -/

/-- Hours and minutes. -/
def clockText (hour minute : Nat) : String := paddedText 2 hour ++ ":" ++ paddedText 2 minute

/-- A time of day. -/
structure TimeOfDay where
  hour : Nat
  minute : Nat
  second : Nat
  /-- The part of a second that has passed, in millionths. -/
  micros : Nat
deriving DecidableEq, Repr

namespace TimeOfDay

/-- The seconds since midnight. -/
def seconds (t : TimeOfDay) : Nat := 3600 * t.hour + 60 * t.minute + t.second

/-- A fraction of a second has six digits and is left out where it is zero. -/
def text (t : TimeOfDay) : String :=
  let fraction := if t.micros = 0 then "" else "." ++ paddedText 6 t.micros
  clockText t.hour t.minute ++ ":" ++ paddedText 2 t.second ++ fraction

/-- The numbers of a time; millionths are left out where they are zero, and so are the seconds before
them. -/
def numbers (t : TimeOfDay) : List Nat :=
  let fraction := if t.micros = 0 then [] else [t.micros]
  let seconds := if t.second = 0 && fraction.isEmpty then [] else t.second :: fraction
  [t.hour, t.minute] ++ seconds

end TimeOfDay

/-- How far a time is from universal time. -/
structure Distance where
  behind : Bool
  hours : Nat
  minutes : Nat
deriving DecidableEq, Repr

namespace Distance

/-- No distance. -/
def universal : Distance := ⟨false, 0, 0⟩

/-- The distance in seconds, negative when the time is behind. -/
def seconds (d : Distance) : Int :=
  let n : Int := 3600 * d.hours + 60 * d.minutes
  if d.behind then -n else n

/-- A distance of nothing is not behind. -/
def text (d : Distance) : String := (if d.seconds < 0 then "-" else "+") ++ clockText d.hours d.minutes

/-- The distance inside a list: whole days before it are negative, the seconds after them are not. -/
def shown (d : Distance) : String :=
  let span (arguments : List String) : String :=
    callText "datetime.timezone" [callText "datetime.timedelta" arguments]
  if d.seconds = 0 then "datetime.timezone.utc"
  else if d.seconds < 0 then span ["days=-1", "seconds=" ++ toString (86400 + d.seconds)]
  else span ["seconds=" ++ toString d.seconds]

end Distance

/-! ## §3 Moments -/

/-- A date, a time, or both. -/
inductive Moment
  | date (d : Date)
  | time (t : TimeOfDay)
  /-- A date with a time. The distance of the time from universal time may be unknown. -/
  | dateTime (d : Date) (t : TimeOfDay) (distance : Option Distance)
deriving DecidableEq, Repr

namespace Moment

/-- A moment in a message; a space parts a date from its time. -/
def text : Moment → String
  | date d => d.text
  | time t => t.text
  | dateTime d t distance => d.text ++ " " ++ t.text ++ (distance.map Distance.text).getD ""

/-- A moment inside a list. -/
def shown : Moment → String
  | date d => callText "datetime.date" (d.numbers.map toString)
  | time t => callText "datetime.time" (t.numbers.map toString)
  | dateTime d t distance =>
    let zone := distance.toList.map fun distance => "tzinfo=" ++ distance.shown
    callText "datetime.datetime" ((d.numbers ++ t.numbers).map toString ++ zone)

/-- The seconds from the start of the calendar to a time of a day, in universal time. -/
def instant (d : Date) (t : TimeOfDay) (distance : Distance) : Int :=
  86400 * d.ordinal + t.seconds - distance.seconds

/-- Two moments count as one. -/
def same : Moment → Moment → Bool
  | dateTime d t (some distance), dateTime d' t' (some distance') =>
    instant d t distance == instant d' t' distance' && t.micros == t'.micros
  | m, n => m == n

end Moment

end FuzzyInference
