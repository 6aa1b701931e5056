/-! Days of the Gregorian calendar, carried on in both directions, and instants
of Universal Time. -/

namespace CryptoConditions

structure Date where
  year : Int
  month : Nat
  day : Nat
deriving DecidableEq

namespace Date

def isLeap (year : Int) : Bool :=
  year % 4 == 0 && (year % 100 != 0 || year % 400 == 0)

def daysInMonth (year : Int) (month : Nat) : Nat :=
  if month = 2 then if isLeap year then 29 else 28
  else if month = 4 ∨ month = 6 ∨ month = 9 ∨ month = 11 then 30
  else 31

/-- Days since 1 January 1970. Years are counted from March, so that a leap day ends one. -/
def toDays (d : Date) : Int :=
  let year := if d.month ≤ 2 then d.year - 1 else d.year
  let month : Nat := if d.month ≤ 2 then d.month + 9 else d.month - 3
  let dayOfYear : Int := ((153 * month + 2) / 5 : Nat) + (d.day : Int) - 1
  365 * year + year / 4 - year / 100 + year / 400 + dayOfYear - 719468

/-- The day that is so many days after 1 January 1970. -/
def ofDays (days : Int) : Date :=
  let fromMarch := days + 719468
  let era := fromMarch / 146097
  let dayOfEra := (fromMarch % 146097).toNat
  let yearOfEra := (dayOfEra - dayOfEra / 1460 + dayOfEra / 36524 - dayOfEra / 146096) / 365
  let dayOfYear := dayOfEra - (365 * yearOfEra + yearOfEra / 4 - yearOfEra / 100)
  let month := (5 * dayOfYear + 2) / 153
  let year := 400 * era + yearOfEra
  let day := dayOfYear - (153 * month + 2) / 5 + 1
  if month < 10 then ⟨year, month + 3, day⟩ else ⟨year + 1, month - 9, day⟩

end Date

/-- Seconds since 1 January 1970, and nanoseconds; a thousand million and more of these are in a
leap second that follows. -/
structure Instant where
  seconds : Int
  nanos : Nat
deriving DecidableEq

namespace Instant

def minYear : Int := -262143

def maxYear : Int := 262142

/-- Whether the year is one that a date may have. -/
def inRange (i : Instant) : Bool :=
  let year := (Date.ofDays (i.seconds / 86400)).year
  decide (minYear ≤ year) && decide (year ≤ maxYear)

def ofSeconds? (seconds : Int) : Option Instant :=
  let i : Instant := ⟨seconds, 0⟩
  if i.inRange then some i else none

end Instant

end CryptoConditions
