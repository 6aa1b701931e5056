import CryptoConditions.Bytes
import CryptoConditions.Text.Numeral

/-! Base64 text in the alphabet that is safe in URIs, without padding.
Three bytes are four symbols; a rest of one or two bytes is two or three
symbols whose unused bits are zero. Reading accepts only what writing gives
and names the first fault; symbols and offsets count bytes of the text. -/

namespace CryptoConditions.Base64

inductive Fault where
  | symbol (byte : UInt8) (offset : Nat)
  | length (count : Nat)
  | padding
  | lastSymbol (byte : UInt8) (offset : Nat)
deriving DecidableEq

def Fault.message : Fault → String
  | symbol byte offset =>
    s!"Invalid symbol {Numeral.decimal byte.toNat}, offset {Numeral.decimal offset}."
  | length count => s!"Invalid input length: {Numeral.decimal count}"
  | padding => "Invalid padding"
  | lastSymbol byte offset =>
    s!"Invalid last symbol {Numeral.decimal byte.toNat}, offset {Numeral.decimal offset}."

def symbol (n : Nat) : UInt8 :=
  if n < 26 then UInt8.ofNat (65 + n)
  else if n < 52 then UInt8.ofNat (71 + n)
  else if n < 62 then UInt8.ofNat (n - 4)
  else if n = 62 then 45
  else 95

def symbolValue? (byte : UInt8) : Option Nat :=
  let b := byte.toNat
  if 65 ≤ b ∧ b ≤ 90 then some (b - 65)
  else if 97 ≤ b ∧ b ≤ 122 then some (b - 71)
  else if 48 ≤ b ∧ b ≤ 57 then some (b + 4)
  else if b = 45 then some 62
  else if b = 95 then some 63
  else none

def encodeSymbols : Bytes → Bytes
  | [] => []
  | [a] => [symbol (a.toNat / 4), symbol (a.toNat % 4 * 16)]
  | [a, b] =>
    [symbol (a.toNat / 4), symbol (a.toNat % 4 * 16 + b.toNat / 16), symbol (b.toNat % 16 * 4)]
  | a :: b :: c :: rest =>
    symbol (a.toNat / 4) :: symbol (a.toNat % 4 * 16 + b.toNat / 16) ::
      symbol (b.toNat % 16 * 4 + c.toNat / 64) :: symbol (c.toNat % 64) :: encodeSymbols rest

def encodeChars (bytes : Bytes) : List Char :=
  (encodeSymbols bytes).map fun byte => Char.ofNat byte.toNat

def encode (bytes : Bytes) : String :=
  String.ofList (encodeChars bytes)

/-- The value of a symbol before the last group. -/
def valueAt (byte : UInt8) (offset : Nat) : Except Fault Nat :=
  match symbolValue? byte with
  | some value => .ok value
  | none => .error (.symbol byte offset)

def paddingSign : UInt8 := 61

/-- The symbols of the last group with their values, and the offset of the first padding sign.
Padding may not stand in the first two places, nor before a symbol. -/
def scanLast (start : Nat) : (index : Nat) → (firstPadding : Option Nat) → Bytes →
    Except Fault (List (UInt8 × Nat) × Option Nat)
  | _, firstPadding, [] => .ok ([], firstPadding)
  | index, firstPadding, byte :: rest =>
    if byte = paddingSign then
      if index < 2 then .error (.symbol byte (start + index))
      else scanLast start (index + 1) (some (firstPadding.getD (start + index))) rest
    else match firstPadding with
      | some offset => .error (.symbol paddingSign offset)
      | none => do
        let value ← valueAt byte (start + index)
        let (symbols, padded) ← scanLast start (index + 1) none rest
        .ok ((byte, value) :: symbols, padded)

/-- The bytes of one to four symbols at the end of a text. -/
def decodeLast (start : Nat) (group : Bytes) : Except Fault Bytes := do
  let (symbols, padded) ← scanLast start 0 none group
  if symbols.length < 2 then throw (.length (start + symbols.length))
  if padded.isSome then throw .padding
  match symbols with
  | [(_, a), (last, b)] =>
    if b % 16 ≠ 0 then throw (.lastSymbol last (start + 1))
    return [UInt8.ofNat (a * 4 + b / 16)]
  | [(_, a), (_, b), (last, c)] =>
    if c % 4 ≠ 0 then throw (.lastSymbol last (start + 2))
    return [UInt8.ofNat (a * 4 + b / 16), UInt8.ofNat (b % 16 * 16 + c / 4)]
  | [(_, a), (_, b), (_, c), (_, d)] =>
    return [UInt8.ofNat (a * 4 + b / 16), UInt8.ofNat (b % 16 * 16 + c / 4),
      UInt8.ofNat (c % 4 * 64 + d)]
  | _ => return []

def decodeSymbols (start : Nat) : Bytes → Except Fault Bytes
  | [] => .ok []
  | a :: b :: c :: d :: e :: rest => do
    let w ← valueAt a start
    let x ← valueAt b (start + 1)
    let y ← valueAt c (start + 2)
    let z ← valueAt d (start + 3)
    let bytes ← decodeSymbols (start + 4) (e :: rest)
    return UInt8.ofNat (w * 4 + x / 16) :: UInt8.ofNat (x % 16 * 16 + y / 4) ::
      UInt8.ofNat (y % 4 * 64 + z) :: bytes
  | group => decodeLast start group

/-- A single byte behind full groups that is neither a symbol nor padding. -/
def stray? (bytes : Bytes) : Option UInt8 :=
  if bytes.length % 4 = 1 then
    bytes.getLast?.filter fun byte => byte ≠ paddingSign ∧ (symbolValue? byte).isNone
  else none

/-- The bytes of a text. A stray byte at its end is named before any other fault. -/
def decode (text : String) : Except Fault Bytes :=
  let bytes := utf8 text
  match stray? bytes with
  | some byte => .error (.symbol byte (bytes.length - 1))
  | none => decodeSymbols 0 bytes

end CryptoConditions.Base64
