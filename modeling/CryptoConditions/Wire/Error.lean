import CryptoConditions.Text.Base64
import CryptoConditions.Text.Numeral

/-! Faults of encoded bytes and of URIs, and their wording. -/

namespace CryptoConditions

/-- What is wrong with the fields of a condition or fulfillment URI. -/
inductive UriFault where
  | fieldCount (expected : Nat) (form : String) (found : Nat)
  | scheme (found : String)
  | hexField (field : String)
  | nonCanonicalHex (field : String)
  | size (field : String)
  | nonCanonicalSize (field : String)
deriving DecidableEq

def UriFault.message : UriFault → String
  | fieldCount expected form found =>
    s!"expected {Numeral.decimal expected} fields in {form} uri, found {Numeral.decimal found}"
  | scheme found => "unexpected scheme '" ++ found ++ "'"
  | hexField field => "invalid hex field '" ++ field ++ "'"
  | nonCanonicalHex field => "non-canonical hex field '" ++ field ++ "'"
  | size field => "invalid size '" ++ field ++ "'"
  | nonCanonicalSize field => "non-canonical size '" ++ field ++ "'"

/-- Why bytes or a text are not the encoding of a value. -/
inductive CodecError where
  | truncated (needed : Nat)
  | nonMinimal
  | lengthTooWide (width : Nat)
  | trailingBytes (count : Nat)
  | overflow (bits : Nat)
  | base64 (fault : Base64.Fault)
  | uri (fault : UriFault)
deriving DecidableEq

def CodecError.message : CodecError → String
  | truncated needed => s!"Unexpected end of input: {Numeral.decimal needed} more bytes needed"
  | nonMinimal => "Non-minimal encoding"
  | lengthTooWide width => s!"Length prefix of {Numeral.decimal width} bytes is too wide"
  | trailingBytes count => s!"{Numeral.decimal count} trailing bytes after value"
  | overflow bits => s!"Integer does not fit in {Numeral.decimal bits} bits"
  | base64 fault => s!"Invalid base64url: {fault.message}"
  | uri fault => s!"Malformed URI: {fault.message}"

end CryptoConditions
