import CryptoConditions.Text.Numeral

/-! Faults of keys, and their wording. -/

namespace CryptoConditions

/-- Why a number is no RSA modulus, or an RSA operation has no result. -/
inductive RsaFault where
  | modulusTooLarge
  | invalidModulus
  | internal
deriving DecidableEq

def RsaFault.message : RsaFault → String
  | modulusTooLarge => "modulus too large"
  | invalidModulus => "invalid modulus"
  | internal => "internal error"

inductive KeyError where
  | invalidPrivateKey
  | invalidPublicKey
  | unsupportedKeyType (length : Nat)
  | rsa (fault : RsaFault)
deriving DecidableEq

def KeyError.message : KeyError → String
  | invalidPrivateKey => "Invalid private key"
  | invalidPublicKey => "Invalid public key"
  | unsupportedKeyType length =>
    s!"Unsupported key type: no scheme uses {Numeral.decimal length}-byte keys"
  | rsa fault => s!"RSA error: {fault.message}"

/-- Signature schemes. -/
inductive KeyType where
  | ed25519
  | rsa
deriving DecidableEq

namespace KeyType

def name : KeyType → String
  | ed25519 => "ed25519"
  | rsa => "rsa"

/-- A letter of the basic Latin alphabet in lower case; any other character as it is. -/
def lower (c : Char) : Char :=
  if 'A' ≤ c ∧ c ≤ 'Z' then Char.ofNat (c.toNat + 32) else c

def ofName? (name : String) : Option KeyType :=
  if name = "ed25519" then some ed25519
  else if name = "rsa" then some rsa
  else none

/-- Letters count in either case; a fault is the text in lower case. -/
def parse (text : String) : Except String KeyType :=
  let lowered := String.ofList (text.toList.map lower)
  match ofName? lowered with
  | some type => .ok type
  | none => .error lowered

/-- The wording of a text that names no scheme. -/
def unknownMessage (text : String) : String :=
  "unknown key type '" ++ text ++ "' (expected ed25519 or rsa)"

end KeyType

end CryptoConditions
