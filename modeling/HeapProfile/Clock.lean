import HeapProfile.Decimal.Fixed

/-!
# Clock texts — a moment as date and time

A moment is a number of nanoseconds since the beginning of 1970.  It is shown as date and time of the
meridian, with as many digits behind the seconds as it needs in groups of three.
-/

namespace HeapProfile.Clock

/-- A day of the calendar. -/
structure Date where
  year : Nat
  month : Nat
  day : Nat
deriving DecidableEq, Repr

/-- The date of a day that is counted from the beginning of 1970.  Years begin in March here, so that
the odd day of a leap year is the last one of its year. -/
def dateOfDay (days : Nat) : Date :=
  -- 1970 begins 719468 days after the first of March of the year zero
  let shifted := days + 719468
  let era := shifted / 146097
  let dayOfEra := shifted % 146097
  -- without the odd days before this one, every year has 365 days
  let yearOfEra := (dayOfEra - dayOfEra / 1460 + dayOfEra / 36524 - dayOfEra / 146096) / 365
  let dayOfYear := dayOfEra - (365 * yearOfEra + yearOfEra / 4 - yearOfEra / 100)
  -- from March on, five months in a row have 153 days
  let monthFromMarch := (5 * dayOfYear + 2) / 153
  let month := if monthFromMarch < 10 then monthFromMarch + 3 else monthFromMarch - 9
  { year := yearOfEra + era * 400 + (if month ≤ 2 then 1 else 0)
    month
    day := dayOfYear - (153 * monthFromMarch + 2) / 5 + 1 }

/-- The digits behind the seconds, in groups of three as far as they are needed. -/
def fraction (nanoseconds : Nat) : String :=
  if nanoseconds = 0 then ""
  else if nanoseconds % 1000000 = 0 then "." ++ Decimal.padded 3 (nanoseconds / 1000000)
  else if nanoseconds % 1000 = 0 then "." ++ Decimal.padded 6 (nanoseconds / 1000)
  else "." ++ Decimal.padded 9 nanoseconds

/-- A moment as date and time. -/
def text (nanoseconds : Nat) : String :=
  let seconds := nanoseconds / 1000000000
  let date := dateOfDay (seconds / 86400)
  let time := seconds % 86400
  Decimal.padded 4 date.year ++ "-" ++ Decimal.padded 2 date.month ++ "-" ++
    Decimal.padded 2 date.day ++ "T" ++ Decimal.padded 2 (time / 3600) ++ ":" ++
    Decimal.padded 2 (time / 60 % 60) ++ ":" ++ Decimal.padded 2 (time % 60) ++
    fraction (nanoseconds % 1000000000) ++ "+00:00"

end HeapProfile.Clock
