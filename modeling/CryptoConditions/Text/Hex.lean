import CryptoConditions.Bytes
import CryptoConditions.Text.Numeral

/-! Hexadecimal text of byte strings: two lower-case digits a byte on output,
either case on input. -/

namespace CryptoConditions.Hex

def encodeChars (bytes : Bytes) : List Char :=
  bytes.flatMap fun byte =>
    [Numeral.digitChar (byte.toNat / 16), Numeral.digitChar (byte.toNat % 16)]

def encode (bytes : Bytes) : String :=
  String.ofList (encodeChars bytes)

/-- An odd number of digits spells no bytes. -/
def decodeChars? : List Char → Option Bytes
  | [] => some []
  | [_] => none
  | high :: low :: rest => do
    let h ← Numeral.hexValue? high
    let l ← Numeral.hexValue? low
    let bytes ← decodeChars? rest
    some (UInt8.ofNat (16 * h + l) :: bytes)

def decode? (text : String) : Option Bytes :=
  decodeChars? text.toList

end CryptoConditions.Hex
