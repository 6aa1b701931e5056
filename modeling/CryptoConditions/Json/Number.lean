import CryptoConditions.Json.Binary64

/-! Numbers in JSON texts: the literal as it is written, what it means, and the
one way in which a number is written. -/

namespace CryptoConditions

/-- An integer of 64 bits, with or without a sign, or a binary fraction. -/
inductive Number where
  | integer (n : Int) (fits : -2 ^ 63 ≤ n ∧ n < 2 ^ 64)
  | float (negative : Bool) (x : Binary64)
deriving DecidableEq

/-- A literal by its digits. A fraction and an exponent have at least one digit. -/
structure Literal where
  negative : Bool
  whole : List Nat
  fraction : List Nat
  exponent : Option (Bool × List Nat)
deriving DecidableEq

namespace Literal

def isDigit (c : Char) : Bool :=
  (Numeral.decimalValue? c).isSome

/-- The digits in front and what comes after them. -/
def digits (chars : List Char) : List Nat × List Char :=
  ((chars.takeWhile isDigit).filterMap Numeral.decimalValue?, chars.dropWhile isDigit)

/-- The digits after a point, if there is one. -/
def fractionPart (chars : List Char) : Option (List Nat × List Char) :=
  match chars with
  | '.' :: rest =>
    let (found, rest) := digits rest
    if found.isEmpty then none else some (found, rest)
  | _ => some ([], chars)

/-- The sign and digits after an `e`, if there is one; the sign is true if negative. -/
def exponentPart (chars : List Char) : Option (Option (Bool × List Nat) × List Char) :=
  match chars with
  | c :: rest =>
    if c = 'e' ∨ c = 'E' then
      let (negative, rest) := match rest with
        | '-' :: rest => (true, rest)
        | '+' :: rest => (false, rest)
        | _ => (false, rest)
      let (found, rest) := digits rest
      if found.isEmpty then none else some (some (negative, found), rest)
    else some (none, chars)
  | [] => some (none, [])

/-- The literal in front. Its whole part has no leading zero. -/
def scan (chars : List Char) : Option (Literal × List Char) := do
  let (negative, rest) := match chars with
    | '-' :: rest => (true, rest)
    | _ => (false, chars)
  let (whole, rest) := digits rest
  guard (whole = [0] ∨ (whole ≠ [] ∧ whole.head? ≠ some 0))
  let (fraction, rest) ← fractionPart rest
  let (exponent, rest) ← exponentPart rest
  return (⟨negative, whole, fraction, exponent⟩, rest)

/-- Takes digits onto a number as long as it fits 64 bits. -/
def significand (n : Nat) : List Nat → Nat × List Nat
  | [] => (n, [])
  | digit :: rest =>
    if n * 10 + digit < 2 ^ 64 then significand (n * 10 + digit) rest else (n, digit :: rest)

/-- `x * 10 ^ exponent`, rounded at each of the powers it is taken by; none if it is too large. -/
def scaled? (x : Binary64) (exponent : Int) : Option Binary64 :=
  if 308 < exponent then if x.mantissa = 0 then some x else none
  else if 0 ≤ exponent then x.mul? (Binary64.tenPow exponent.toNat)
  else if -308 ≤ exponent then some (x.div (Binary64.tenPow (-exponent).toNat))
  else if x.mantissa = 0 then some x
  else scaled? (x.div (Binary64.tenPow 308)) (exponent + 308)
termination_by exponent.natAbs

/-- The exponent that is written; `none` stands for one of more than 31 bits. -/
def writtenExponent (exponent : Option (Bool × List Nat)) : Option Int :=
  match exponent with
  | none => some 0
  | some (negative, digits) =>
    let n := Numeral.value 10 digits
    if 2 ^ 31 ≤ n then none else some (if negative then -(n : Int) else n)

/-- The binary fraction of a literal. Digits that do not fit the significand only count for the
exponent. -/
def magnitude? (l : Literal) : Option Binary64 :=
  let (n, wholeRest) := significand 0 l.whole
  let (n, fractionRest) := significand n l.fraction
  let places : Int := wholeRest.length - (l.fraction.length - fractionRest.length : Nat)
  match writtenExponent l.exponent with
  | some exponent =>
    (Binary64.ofRatio? n 1).bind fun x => scaled? x (places + exponent)
  | none =>
    if n = 0 ∨ l.exponent.any Prod.fst then some Binary64.zero else none

/-- The whole number that is written, if there is neither fraction nor exponent. -/
def whole? (l : Literal) : Option Nat :=
  if l.fraction.isEmpty ∧ l.exponent.isNone then some (Numeral.value 10 l.whole) else none

/-- An integer if one is written that fits; negative zero is a fraction. -/
def integer? (l : Literal) : Option Number := do
  let n ← l.whole?
  let i : Int := if l.negative then -(n : Int) else n
  if fits : -2 ^ 63 ≤ i ∧ i < 2 ^ 64 then
    if l.negative ∧ n = 0 then none else some (.integer i fits)
  else none

/-- None for a number that is too large. -/
def value? (l : Literal) : Option Number :=
  l.integer?.orElse fun _ => l.magnitude?.map (Number.float l.negative)

/-- A number that is written as an integer without a sign and fits `bits` bits. -/
def unsigned? (bits : Nat) (l : Literal) : Option Nat := do
  let n ← l.whole?
  guard (¬ l.negative ∧ n < 2 ^ bits)
  return n

end Literal

namespace Number

/-- Digits with a point after as many of them as `place`, and zeros where digits are missing. -/
def pointed (digits : List Char) (place : Int) : List Char :=
  if place ≤ 0 then '0' :: '.' :: List.replicate (-place).toNat '0' ++ digits
  else
    let whole := digits.take place.toNat
    let fraction := digits.drop place.toNat
    whole ++ List.replicate (place.toNat - whole.length) '0' ++ '.' ::
      if fraction.isEmpty then ['0'] else fraction

/-- One digit, the others after a point, and an exponent with its sign. -/
def scientific (digits : List Char) (exponent : Int) : List Char :=
  let fraction := digits.drop 1
  digits.take 1 ++ (if fraction.isEmpty then [] else '.' :: fraction) ++
    'e' :: (if exponent < 0 then '-' else '+') :: Numeral.decimalChars exponent.natAbs

/-- The fewest digits that read back. They are written with a point when the first of them
stands for a power of ten from -5 to 15, and with an exponent otherwise. -/
def floatChars (x : Binary64) : List Char :=
  if x.mantissa = 0 then ['0', '.', '0']
  else
    let shortest := x.shortest
    let digits := Numeral.decimalChars shortest.digits
    let exponent := shortest.exponent + digits.length - 1
    let digits := (digits.reverse.dropWhile (· == '0')).reverse
    if -5 ≤ exponent ∧ exponent ≤ 15 then pointed digits (exponent + 1)
    else scientific digits exponent

def signed (negative : Bool) (chars : List Char) : List Char :=
  if negative then '-' :: chars else chars

def chars : Number → List Char
  | integer n _ => signed (decide (n < 0)) (Numeral.decimalChars n.natAbs)
  | float negative x => signed negative (floatChars x)

def ofUInt64 (n : UInt64) : Number :=
  integer n.toNat ⟨by have := n.toNat_lt; omega, by have := n.toNat_lt; omega⟩

end Number

end CryptoConditions
