/-
Points in time.

* `Moment` — a date and a time of day at a place with a known distance from universal time;
* `Moment.instant`, `Moment.order` — moments are compared by the time that has passed, wherever
  they were noted;
* `Moment.render` — the form of RFC 3339, with as many places of the second as are needed.

Design notes: the sixtieth second of a minute is a leap second. It comes after every part of the
second before it and before the next minute, so it counts as a prolonged 59th second.
-/
import DocQuery.Number.Layout
import DocQuery.Time.Calendar

namespace DocQuery.Time

/-- A local date and time of day, and the minutes by which local time is ahead of universal time. -/
structure Moment where
  date : Date
  hour : Nat
  minute : Nat
  second : Nat
  nanosecond : Nat
  offset : Int
deriving DecidableEq, Repr

namespace Moment

/-- The start of a day in universal time. -/
def midnight (date : Date) : Moment := ⟨date, 0, 0, 0, 0, 0⟩

/-- The day number of the first day of 1970. -/
def epoch : Int := 719163

/-- The moment in universal time after so many seconds and nanoseconds since the start of 1970. -/
def sinceEpoch? (seconds : Int) (nanosecond : Nat) : Option Moment :=
  let inDay := (seconds % 86400).toNat
  (Date.ofDayNumber? (epoch + seconds / 86400)).map fun date =>
    ⟨date, inDay / 3600, inDay / 60 % 60, inDay % 60, nanosecond, 0⟩

/-- The seconds passed in universal time, and the nanoseconds passed since. -/
def instant (m : Moment) : Int × Nat :=
  let leap := m.second - 59
  let seconds := m.hour * 3600 + m.minute * 60 + (m.second - leap)
  (m.date.dayNumber * 86400 + seconds - m.offset * 60, m.nanosecond + leap * 1000000000)

/-- The order in time. -/
def order (a b : Moment) : Ordering :=
  (compare a.instant.1 b.instant.1).then (compare a.instant.2 b.instant.2)

/-- A number in at least `width` digits. -/
def padded (width n : Nat) : List Char :=
  let digits := Number.digitsOf n
  List.replicate (width - digits.length) '0' ++ digits

/-- A year in four digits; with a sign and as many digits as needed outside `0..9999`. -/
def yearText (year : Int) : List Char :=
  if 0 ≤ year ∧ year ≤ 9999 then padded 4 year.natAbs
  else (if year < 0 then '-' else '+') :: padded 4 year.natAbs

/-- A fraction of a second in 3, 6 or 9 places, and none at all for a full second. -/
def fractionText (nanosecond : Nat) : List Char :=
  if nanosecond = 0 then []
  else if nanosecond % 1000000 = 0 then '.' :: padded 3 (nanosecond / 1000000)
  else if nanosecond % 1000 = 0 then '.' :: padded 6 (nanosecond / 1000)
  else '.' :: padded 9 nanosecond

/-- The distance from universal time, as signed hours and minutes. -/
def offsetText (offset : Int) : List Char :=
  (if offset < 0 then '-' else '+') ::
    padded 2 (offset.natAbs / 60) ++ ':' :: padded 2 (offset.natAbs % 60)

/-- A moment in the form of RFC 3339. -/
def render (m : Moment) : String :=
  String.ofList <|
    yearText m.date.year ++ '-' :: padded 2 m.date.month ++ '-' :: padded 2 m.date.day ++
      'T' :: padded 2 m.hour ++ ':' :: padded 2 m.minute ++ ':' :: padded 2 m.second ++
      fractionText m.nanosecond ++ offsetText m.offset

end Moment

end DocQuery.Time
