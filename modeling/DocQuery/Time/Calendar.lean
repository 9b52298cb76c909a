/-
Dates of the Gregorian calendar, extended to all years.

* `Date.isValid` — whether a year, month and day name a date;
* `Date.ofOrdinal?` — the date of a day of the year;
* `Date.dayNumber` — the days counted through, for comparing dates.
-/
namespace DocQuery.Time

/-- A year, a month and a day of the month, the latter two counted from one. -/
structure Date where
  year : Int
  month : Nat
  day : Nat
deriving DecidableEq, Repr

/-- Every fourth year is a leap year, but of the full centuries only every fourth. -/
def isLeapYear (year : Int) : Bool :=
  year % 4 = 0 && (year % 100 ≠ 0 || year % 400 = 0)

/-- The number of days of each month of a year. -/
def monthLengths (year : Int) : List Nat :=
  [31, if isLeapYear year then 29 else 28, 31, 30, 31, 30, 31, 31, 30, 31, 30, 31]

/-- The first and the last year that dates are kept for. -/
def yearRange : Int × Int := (-262143, 262142)

namespace Date

/-- Whether the year is one that dates are kept for, the month exists and has the day. -/
def isValid (d : Date) : Bool :=
  yearRange.1 ≤ d.year && d.year ≤ yearRange.2 && 1 ≤ d.month && d.month ≤ 12 && 1 ≤ d.day &&
    d.day ≤ (monthLengths d.year).getD (d.month - 1) 0

/-- The day of the year, counted from one. -/
def ordinal (d : Date) : Nat :=
  ((monthLengths d.year).take (d.month - 1)).foldr (· + ·) d.day

/-- Month and day of the `day`-th day of a year whose remaining months are `lengths`. -/
def monthAndDay? (month : Nat) (day : Nat) : List Nat → Option (Nat × Nat)
  | [] => none
  | length :: lengths =>
    if day ≤ length then some (month, day) else monthAndDay? (month + 1) (day - length) lengths

/-- The date that is the `day`-th day of a year. -/
def ofOrdinal? (year : Int) (day : Nat) : Option Date :=
  if day = 0 then none
  else
    (monthAndDay? 1 day (monthLengths year)).bind fun (month, dayOfMonth) =>
      let date : Date := ⟨year, month, dayOfMonth⟩
      if date.isValid then some date else none

/-- The number of days up to a date, counted from the first day of the year one. -/
def dayNumber (d : Date) : Int :=
  let before := d.year - 1
  365 * before + before / 4 - before / 100 + before / 400 + d.ordinal

/-- The date of a day number. The last day of four centuries and of four years belongs to the
century and the year before it. -/
def ofDayNumber? (n : Int) : Option Date :=
  let inCycle := ((n - 1) % 146097).toNat
  let century := min (inCycle / 36524) 3
  let inCentury := inCycle - 36524 * century
  let inLeapCycle := inCentury % 1461
  let year := min (inLeapCycle / 365) 3
  let yearsBefore := (n - 1) / 146097 * 400 + 100 * century + 4 * (inCentury / 1461 : Nat) + year
  ofOrdinal? (yearsBefore + 1) (inLeapCycle - 365 * year + 1)

end Date

end DocQuery.Time
