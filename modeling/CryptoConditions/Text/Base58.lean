import CryptoConditions.Bytes
import CryptoConditions.Text.Numeral

/-! Base58 text: a byte string as one number in base 58, with a digit one for
every leading zero byte. -/

namespace CryptoConditions.Base58

def alphabet : List Char :=
  "123456789ABCDEFGHJKLMNPQRSTUVWXYZabcdefghijkmnopqrstuvwxyz".toList

def symbol (n : Nat) : Char :=
  alphabet.getD n '1'

def symbolValue? (c : Char) : Option Nat :=
  alphabet.findIdx? (· == c)

def encodeChars (bytes : Bytes) : List Char :=
  let zeros := bytes.takeWhile (· == 0)
  let n := ofBigEndian bytes
  zeros.map (fun _ => '1') ++
    if n = 0 then [] else (Numeral.digits 58 n).map symbol

def encode (bytes : Bytes) : String :=
  String.ofList (encodeChars bytes)

def decodeChars? (chars : List Char) : Option Bytes := do
  let digits ← chars.mapM symbolValue?
  let zeros := digits.takeWhile (· == 0)
  let n := Numeral.value 58 digits
  some (zeros.map (fun _ => 0) ++ if n = 0 then [] else minimalBigEndian n)

/-- Fails on a symbol outside the alphabet; every other text spells bytes. -/
def decode? (text : String) : Option Bytes :=
  decodeChars? text.toList

end CryptoConditions.Base58
