import CryptoConditions.Key.Ed25519
import CryptoConditions.Key.Generation
import CryptoConditions.Key.Pkcs8
import CryptoConditions.Text.Base58
import CryptoConditions.Text.Hex

/-! Keys of either scheme. A public key goes by its bytes, whose number tells the
scheme; its text is base58. The text of a private key is the base58 form of a
seed of 32 bytes or the hexadecimal PKCS#8 form of an RSA key. -/

namespace CryptoConditions

inductive PublicKey where
  | ed25519 (key : Ed25519.PublicKey)
  | rsa (key : Rsa.PublicKey)
deriving DecidableEq

namespace PublicKey

def ofBytes (bytes : Bytes) : Except KeyError PublicKey :=
  match Octets.ofBytes? 32 bytes with
  | some octets => match Ed25519.PublicKey.ofOctets? octets with
    | some key => .ok (ed25519 key)
    | none => .error .invalidPublicKey
  | none =>
    if Rsa.minLength ≤ bytes.length ∧ bytes.length ≤ Rsa.maxLength then
      rsa <$> Rsa.PublicKey.ofModulus bytes
    else .error (.unsupportedKeyType bytes.length)

/-- The point, or the modulus. -/
def bytes : PublicKey → Bytes
  | ed25519 key => key.octets.bytes
  | rsa key => key.modulus.bytes

def base58 (key : PublicKey) : String :=
  Base58.encode key.bytes

def ofBase58 (text : String) : Except KeyError PublicKey :=
  match Base58.decode? text with
  | some bytes => ofBytes bytes
  | none => .error .invalidPublicKey

def type : PublicKey → KeyType
  | ed25519 _ => .ed25519
  | rsa _ => .rsa

/-- Whether a signature is one of the message. -/
def verify (message signature : Bytes) : PublicKey → Bool
  | ed25519 key => Ed25519.verify key message signature
  | rsa key => Rsa.verify key message signature

end PublicKey

inductive KeyPair where
  | ed25519 (pair : Ed25519.KeyPair)
  | rsa (key : Rsa.PrivateKey)
deriving DecidableEq

namespace KeyPair

def type : KeyPair → KeyType
  | ed25519 _ => .ed25519
  | rsa _ => .rsa

def publicKey : KeyPair → PublicKey
  | ed25519 pair => .ed25519 pair.publicKey
  | rsa key => .rsa key.publicKey

/-- The signature of a message. Only an RSA signature needs the salt. -/
def sign (salt : Octets 32) (message : Bytes) : KeyPair → Except KeyError Bytes
  | ed25519 pair => .ok (pair.sign message).bytes
  | rsa key => key.sign salt message

def ofSeed (seed : Octets 32) : Except KeyError KeyPair :=
  match Ed25519.KeyPair.ofSeed? seed with
  | some pair => .ok (ed25519 pair)
  | none => .error .invalidPrivateKey

/-- The seed that a text spells in base58. -/
def seed? (text : String) : Option (Octets 32) := do
  Octets.ofBytes? 32 (← Base58.decode? text)

def privateText : KeyPair → Except KeyError String
  | ed25519 pair => .ok (Base58.encode pair.seed.bytes)
  | rsa key => Hex.encode <$> Pkcs8.encode key

/-- A text that spells a seed is one, even where it is also hexadecimal. -/
def ofPrivateText (text : String) : Except KeyError KeyPair :=
  match seed? text with
  | some seed => ofSeed seed
  | none => match Hex.decode? text with
    | some bytes => rsa <$> Pkcs8.decode bytes
    | none => .error .invalidPrivateKey

/-- The pair that a random seed gives; an RSA modulus has 2048 bits. -/
def generate (type : KeyType) (seed : Bytes) : Except KeyError KeyPair :=
  match type with
  | .ed25519 => ofSeed (sha256 seed)
  | .rsa => rsa <$> Rsa.PrivateKey.generate 2048 seed

/-- What a pair may show of itself. -/
def summary (pair : KeyPair) : String :=
  let type := match pair.type with
    | .ed25519 => "Ed25519"
    | .rsa => "Rsa"
  "KeyPair \x7b type: " ++ type ++ ", public_key: \"" ++ pair.publicKey.base58 ++ "\" \x7d"

end KeyPair

end CryptoConditions
