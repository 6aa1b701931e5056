import CryptoConditions.Bytes

/-! Positional numerals: the digits of a number in a base, most significant
first and without leading zeros, and the number that digits spell. -/

namespace CryptoConditions.Numeral

/-- Zero has the one digit zero. -/
def digits (base : Nat) (n : Nat) : List Nat :=
  if base < 2 ∨ n < base then [n] else digits base (n / base) ++ [n % base]
termination_by n
decreasing_by exact Nat.div_lt_self (by omega) (by omega)

def value (base : Nat) (digits : List Nat) : Nat :=
  digits.foldl (fun n digit => n * base + digit) 0

def digitChar (n : Nat) : Char :=
  if n < 10 then Char.ofNat (48 + n) else Char.ofNat (87 + n)

def decimalChars (n : Nat) : List Char :=
  (digits 10 n).map digitChar

def hexChars (n : Nat) : List Char :=
  (digits 16 n).map digitChar

def decimal (n : Nat) : String :=
  String.ofList (decimalChars n)

def hex (n : Nat) : String :=
  String.ofList (hexChars n)

/-- A decimal integer with a minus sign if it is below zero. -/
def signedChars (n : Int) : List Char :=
  if n < 0 then '-' :: decimalChars n.natAbs else decimalChars n.natAbs

/-- A decimal number padded with zeros to at least `width` digits. -/
def paddedChars (width n : Nat) : List Char :=
  let chars := decimalChars n
  List.replicate (width - chars.length) '0' ++ chars

def decimalValue? (c : Char) : Option Nat :=
  if '0' ≤ c ∧ c ≤ '9' then some (c.toNat - 48) else none

def hexValue? (c : Char) : Option Nat :=
  if '0' ≤ c ∧ c ≤ '9' then some (c.toNat - 48)
  else if 'a' ≤ c ∧ c ≤ 'f' then some (c.toNat - 87)
  else if 'A' ≤ c ∧ c ≤ 'F' then some (c.toNat - 55)
  else none

/-- Digits with nothing before or after them; at least one. -/
def unsigned? (base : Nat) (digitValue? : Char → Option Nat) (chars : List Char) : Option Nat :=
  if chars.isEmpty then none
  else (chars.mapM digitValue?).map (value base)

/-- A number that may start with a plus sign and fits `bits` bits. -/
def bounded? (bits base : Nat) (digitValue? : Char → Option Nat) (chars : List Char) :
    Option Nat := do
  let n ← unsigned? base digitValue? (match chars with
    | '+' :: rest => rest
    | chars => chars)
  if n < 2 ^ bits then some n else none

/-- A decimal integer with an optional sign that fits 64 bits in two's complement. -/
def int64? (chars : List Char) : Option Int := do
  let (negative, digits) := match chars with
    | '-' :: rest => (true, rest)
    | '+' :: rest => (false, rest)
    | chars => (false, chars)
  let n ← unsigned? 10 decimalValue? digits
  if negative then
    if n ≤ 2 ^ 63 then some (-(n : Int)) else none
  else if n < 2 ^ 63 then some (n : Int) else none

end CryptoConditions.Numeral
