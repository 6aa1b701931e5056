import CryptoConditions.Json.Number

/-! Tokens of JSON texts. Strings are kept as they are written, so that an escape
that names half a character matters only to those who look at the text. -/

namespace CryptoConditions.Json

/-- A character of a string, or an escaped code unit of 16 bits. -/
inductive Piece where
  | char (c : Char)
  | unit (n : Nat)
deriving DecidableEq

inductive Token where
  | openArray
  | closeArray
  | openObject
  | closeObject
  | comma
  | colon
  | null
  | bool (value : Bool)
  | number (literal : Literal)
  | string (pieces : List Piece)
deriving DecidableEq

/-- The character that a short escape stands for. -/
def shortEscape? (c : Char) : Option Char :=
  if c = '"' ∨ c = '\\' ∨ c = '/' then some c
  else if c = 'b' then some (Char.ofNat 8)
  else if c = 'f' then some (Char.ofNat 12)
  else if c = 'n' then some '\n'
  else if c = 'r' then some '\r'
  else if c = 't' then some '\t'
  else none

/-- The code unit of four hexadecimal digits. -/
def unit? (a b c d : Char) : Option Nat := do
  return Numeral.value 16 [← Numeral.hexValue? a, ← Numeral.hexValue? b,
    ← Numeral.hexValue? c, ← Numeral.hexValue? d]

/-- The pieces up to the closing quote, and what comes after it. -/
def pieces : List Char → Option (List Piece × List Char)
  | [] => none
  | '"' :: rest => some ([], rest)
  | '\\' :: 'u' :: a :: b :: c :: d :: rest => do
    let n ← unit? a b c d
    let (found, rest) ← pieces rest
    return (.unit n :: found, rest)
  | '\\' :: c :: rest => do
    let c ← shortEscape? c
    let (found, rest) ← pieces rest
    return (.char c :: found, rest)
  | c :: rest => do
    guard (c ≠ '\\' ∧ 32 ≤ c.toNat)
    let (found, rest) ← pieces rest
    return (.char c :: found, rest)

/-- The token in front of characters that do not start with a blank. -/
def token (chars : List Char) : Option (Token × List Char) :=
  match chars with
  | '[' :: rest => some (.openArray, rest)
  | ']' :: rest => some (.closeArray, rest)
  | '{' :: rest => some (.openObject, rest)
  | '}' :: rest => some (.closeObject, rest)
  | ',' :: rest => some (.comma, rest)
  | ':' :: rest => some (.colon, rest)
  | 'n' :: 'u' :: 'l' :: 'l' :: rest => some (.null, rest)
  | 't' :: 'r' :: 'u' :: 'e' :: rest => some (.bool true, rest)
  | 'f' :: 'a' :: 'l' :: 's' :: 'e' :: rest => some (.bool false, rest)
  | '"' :: rest => (pieces rest).map fun (found, rest) => (.string found, rest)
  | _ => (Literal.scan chars).map fun (literal, rest) => (.number literal, rest)

/-- White space of JSON, which is less than that of other texts. -/
def isBlank (c : Char) : Bool :=
  c == ' ' || c == '\n' || c == '\t' || c == '\r'

/-- The tokens of a text in which each token takes at least one of `count` characters. -/
def tokensWithin : (count : Nat) → List Char → Option (List Token)
  | count, chars =>
    match chars.dropWhile isBlank, count with
    | [], _ => some []
    | _, 0 => none
    | c :: rest, count + 1 => do
      let (first, rest) ← token (c :: rest)
      let others ← tokensWithin count rest
      return first :: others

def tokens (chars : List Char) : Option (List Token) :=
  tokensWithin chars.length chars

end CryptoConditions.Json
