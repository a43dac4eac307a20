namespace Typesetter

/-- A moment at a place whose clock is ahead of universal time by the offset, in seconds. -/
structure Moment where
  year : Int
  month : Nat
  day : Nat
  hour : Nat := 0
  minute : Nat := 0
  second : Nat := 0
  nanosecond : Nat := 0
  offset : Int := 0
  deriving Repr

namespace Moment

/-- Days since the first of January 1970. Years are counted from March. -/
def dayNumber (year : Int) (month day : Nat) : Int :=
  let y := if month ≤ 2 then year - 1 else year
  let era := y.fdiv 400
  let yearOfEra := y - era * 400
  let monthFromMarch : Int := (month + 9) % 12
  let dayOfYear := (153 * monthFromMarch + 2) / 5 + day - 1
  let dayOfEra := yearOfEra * 365 + yearOfEra / 4 - yearOfEra / 100 + dayOfYear
  era * 146097 + dayOfEra - 719468

def days (m : Moment) : Int := dayNumber m.year m.month m.day

def weekday (m : Moment) : Nat := ((m.days + 4).fmod 7).toNat

def weekdayFromMonday (m : Moment) : Nat := (m.weekday + 6) % 7

def ordinal (m : Moment) : Nat := (m.days - dayNumber m.year 1 1).toNat + 1

def weekFromSunday (m : Moment) : Nat := (m.ordinal + 6 - m.weekday) / 7

def weekFromMonday (m : Moment) : Nat := (m.ordinal + 6 - m.weekdayFromMonday) / 7

/-- The Thursday of a week lies in the year to which the week belongs. -/
def isoYearAndWeek (m : Moment) : Int × Nat :=
  let thursday := m.days - m.weekdayFromMonday + 3
  let year :=
    if thursday < dayNumber m.year 1 1 then m.year - 1
    else if thursday < dayNumber (m.year + 1) 1 1 then m.year
    else m.year + 1
  (year, (thursday - dayNumber year 1 1).toNat / 7 + 1)

def hour12 (m : Moment) : Nat := (m.hour + 11) % 12 + 1

def isAfternoon (m : Moment) : Bool := 12 ≤ m.hour

def timestamp (m : Moment) : Int :=
  m.days * 86400 + (m.hour * 3600 + m.minute * 60 + m.second : Nat) - m.offset

def monthNames : List String :=
  ["January", "February", "March", "April", "May", "June", "July", "August", "September",
    "October", "November", "December"]

def weekdayNames : List String :=
  ["Sunday", "Monday", "Tuesday", "Wednesday", "Thursday", "Friday", "Saturday"]

def monthName (m : Moment) : String := monthNames.getD (m.month - 1) ""

def weekdayName (m : Moment) : String := weekdayNames.getD m.weekday ""

end Moment

end Typesetter
