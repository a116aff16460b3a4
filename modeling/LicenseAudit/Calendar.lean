/-!
# Dates and times

Days of the Gregorian calendar counted from the first day of 1970, and the
written form of an instant given in milliseconds since then.  The calendar
repeats every 400 years, and a year is taken to begin in March, so that
the leap day is its last.
-/

namespace LicenseAudit.Calendar

/-- The number of a day, given its year, month and day of the month; a day
beyond the end of its month runs on into the next. -/
def dayNumber (year month day : Int) : Int :=
  let y := if month ≤ 2 then year - 1 else year
  let era := y / 400
  let yearOfEra := y - era * 400
  let shifted := if month > 2 then month - 3 else month + 9
  let dayOfYear := (153 * shifted + 2) / 5 + day - 1
  let dayOfEra := yearOfEra * 365 + yearOfEra / 4 - yearOfEra / 100 + dayOfYear
  era * 146097 + dayOfEra - 719468

/-- The year, month and day of the month of a day number. -/
def dateOf (number : Int) : Int × Int × Int :=
  let z := number + 719468
  let era := z / 146097
  let dayOfEra := z - era * 146097
  let yearOfEra := (dayOfEra - dayOfEra / 1460 + dayOfEra / 36524 - dayOfEra / 146096) / 365
  let dayOfYear := dayOfEra - (365 * yearOfEra + yearOfEra / 4 - yearOfEra / 100)
  let shifted := (5 * dayOfYear + 2) / 153
  let day := dayOfYear - (153 * shifted + 2) / 5 + 1
  let month := if shifted < 10 then shifted + 3 else shifted - 9
  let year := yearOfEra + era * 400
  (if month ≤ 2 then year + 1 else year, month, day)

/-- How many milliseconds a day has. -/
def dayLength : Int :=
  86400000

/-- A number in at least `width` digits. -/
def padded (width : Nat) (n : Int) : String :=
  let digits := toString n.natAbs
  String.ofList (List.replicate (width - digits.length) '0') ++ digits

/-- A year in four digits, or in six with a sign. -/
def yearText (year : Int) : String :=
  if 0 ≤ year ∧ year ≤ 9999 then padded 4 year
  else (if year < 0 then "-" else "+") ++ padded 6 year

/-- The date of a day number. -/
def dateText (number : Int) : String :=
  let (year, month, day) := dateOf number
  yearText year ++ "-" ++ padded 2 month ++ "-" ++ padded 2 day

/-- The time of day of an instant, with milliseconds. -/
def timeText (instant : Int) : String :=
  let t := instant % dayLength
  padded 2 (t / 3600000) ++ ":" ++ padded 2 (t / 60000 % 60) ++ ":" ++ padded 2 (t / 1000 % 60)
    ++ "." ++ padded 3 (t % 1000)

/-- The date and time of an instant, without a time zone. -/
def text (instant : Int) : String :=
  dateText (instant / dayLength) ++ "T" ++ timeText instant

/-- The date and time of an instant in digits, without milliseconds. -/
def digits (instant : Int) : String :=
  let (year, month, day) := dateOf (instant / dayLength)
  let second := instant % dayLength / 1000
  padded 4 year ++ padded 2 month ++ padded 2 day ++ "-" ++ padded 2 (second / 3600) ++
    padded 2 (second / 60 % 60) ++ padded 2 (second % 60)

/-- The furthest instant from 1970 that can be written. -/
def lastInstant : Int :=
  8640000000000000

end LicenseAudit.Calendar
