import CryptoConditions.Text.Blank
import CryptoConditions.Text.Numeral
import CryptoConditions.Time.Instant

/-! Timestamps: the text of an instant. One form is written, in Universal Time
with as many groups of three decimals as are needed; many are read. Blanks may
stand before numbers and separators, and an offset may follow the time. -/

namespace CryptoConditions.Timestamp

/-- Four digits; a year before zero or of more digits has a sign. -/
def yearChars (year : Int) : List Char :=
  if year < 0 then '-' :: Numeral.paddedChars 4 year.natAbs
  else if 9999 < year then '+' :: Numeral.paddedChars 4 year.natAbs
  else Numeral.paddedChars 4 year.natAbs

def decimals (nanos : Nat) : List Char :=
  if nanos = 0 then []
  else if nanos % 1000000 = 0 then '.' :: Numeral.paddedChars 3 (nanos / 1000000)
  else if nanos % 1000 = 0 then '.' :: Numeral.paddedChars 6 (nanos / 1000)
  else '.' :: Numeral.paddedChars 9 nanos

def chars (i : Instant) : List Char :=
  let date := Date.ofDays (i.seconds / 86400)
  let time := (i.seconds % 86400).toNat
  let leap := i.nanos / 1000000000
  yearChars date.year ++ '-' :: Numeral.paddedChars 2 date.month ++
    '-' :: Numeral.paddedChars 2 date.day ++ 'T' :: Numeral.paddedChars 2 (time / 3600) ++
    ':' :: Numeral.paddedChars 2 (time / 60 % 60) ++
    ':' :: Numeral.paddedChars 2 (time % 60 + leap) ++ decimals (i.nanos % 1000000000) ++ ['Z']

def format (i : Instant) : String :=
  String.ofList (chars i)

/-- A step over the characters still to be read. -/
abbrev Scan (α : Type) : Type := StateT (List Char) Option α

def blanks : Scan Unit :=
  modify (List.dropWhile Text.isBlank)

def next : Scan Char := fun chars =>
  match chars with
  | c :: rest => some (c, rest)
  | [] => none

/-- The digits in front, at most so many. -/
def digits : (width : Nat) → List Char → List Nat × List Char
  | 0, chars => ([], chars)
  | _ + 1, [] => ([], [])
  | width + 1, c :: rest =>
    match Numeral.decimalValue? c with
    | none => ([], c :: rest)
    | some digit =>
      let (found, rest) := digits width rest
      (digit :: found, rest)

/-- A number of at least one digit and at most `width`, with the number of its digits. -/
def counted (width : Nat) : Scan (Nat × Nat) := fun chars =>
  let (found, rest) := digits width chars
  if found.isEmpty then none else some ((Numeral.value 10 found, found.length), rest)

def number (width : Nat) : Scan Nat := do
  return (← counted width).1

/-- A number of one or two digits within bounds. -/
def field (low high : Nat) : Scan Nat := do
  blanks
  let n ← number 2
  guard (low ≤ n ∧ n ≤ high)
  return n

def separator (c : Char) : Scan Unit := do
  blanks
  guard ((← next) = c)

/-- A year has up to four digits, or a sign and any number of them. -/
def year : Scan Int := do
  blanks
  match ← get with
  | '-' :: rest => do
    set rest
    return -(← number rest.length : Nat)
  | '+' :: rest => do
    set rest
    return (← number rest.length : Nat)
  | _ => return (← number 4 : Nat)

/-- Nanoseconds after a point; digits after the ninth do not count. -/
def fraction : Scan Nat := do
  match ← get with
  | '.' :: rest => do
    set rest
    let (n, count) ← counted 9
    modify (List.dropWhile fun c => (Numeral.decimalValue? c).isSome)
    return n * 10 ^ (9 - count)
  | _ => return 0

/-- Exactly two digits, the first of them at most `high`. -/
def pair (high : Nat) : Scan Nat := do
  let tens ← Numeral.decimalValue? (← next)
  let ones ← Numeral.decimalValue? (← next)
  guard (tens ≤ high)
  return 10 * tens + ones

/-- Seconds by which a time is ahead of Universal Time; less than a day. -/
def offset : Scan Int := do
  match ← get with
  | u :: t :: c :: rest =>
    if u ∈ ['U', 'u'] ∧ t ∈ ['T', 't'] ∧ c ∈ ['C', 'c'] then
      set rest
      return 0
  | _ => pure ()
  let sign ← next
  if sign = 'Z' ∨ sign = 'z' then return 0
  guard (sign = '+' ∨ sign = '-' ∨ sign = '−')
  let hours ← pair 9
  modify (List.dropWhile fun c => c == ':' || Text.isBlank c)
  let minutes ← pair 5
  guard (hours < 24)
  let seconds : Nat := 3600 * hours + 60 * minutes
  return if sign = '+' then seconds else -(seconds : Int)

def date : Scan Date := do
  let year ← year
  separator '-'
  let month ← field 1 12
  separator '-'
  let day ← field 1 31
  return ⟨year, month, day⟩

def instant : Scan Instant := do
  let date ← date
  guard (Instant.minYear ≤ date.year ∧ date.year ≤ Instant.maxYear)
  guard (date.day ≤ Date.daysInMonth date.year date.month)
  guard ((← next) ∈ ['T', 't', ' '])
  let hour ← field 0 23
  separator ':'
  let minute ← field 0 59
  separator ':'
  let second ← field 0 60
  let nanos ← fraction
  blanks
  let offset ← offset
  blanks
  let leap := second / 60
  let time : Nat := 3600 * hour + 60 * minute + (second - leap)
  let i : Instant := ⟨86400 * date.toDays + time - offset, nanos + 1000000000 * leap⟩
  guard i.inRange
  return i

def parse? (text : String) : Option Instant :=
  match instant text.toList with
  | some (i, []) => some i
  | _ => none

end CryptoConditions.Timestamp
