import CryptoConditions.Key.Error
import CryptoConditions.Key.Modular
import CryptoConditions.Key.Pss

/-! RSA signatures over the SHA-256 digest of a message, encoded with PSS. The
public half of a key goes by its modulus alone, with the exponent 65537. -/

namespace CryptoConditions.Rsa

/-- The exponent that a modulus stands for. -/
def publicExponent : Nat := 65537

structure Modulus where
  val : Nat
  odd : val % 2 = 1
  large : publicExponent < val
  fits : bitLength val ≤ 4096
deriving DecidableEq

namespace Modulus

def ofNat (n : Nat) : Except RsaFault Modulus :=
  if fits : bitLength n ≤ 4096 then
    if h : n % 2 = 1 ∧ publicExponent < n then .ok ⟨n, h.1, h.2, fits⟩
    else .error .invalidModulus
  else .error .modulusTooLarge

/-- Bytes of the modulus, and of every signature. -/
def length (n : Modulus) : Nat := byteWidth n.val

def bytes (n : Modulus) : Bytes := minimalBigEndian n.val

/-- Bits that an encoded digest takes. -/
def encodedBits (n : Modulus) : Nat := bitLength n.val - 1

end Modulus

structure PublicKey where
  modulus : Modulus
  exponent : Nat
deriving DecidableEq

/-- The key of a modulus with the fixed exponent. A modulus has no leading zero byte. -/
def PublicKey.ofModulus (bytes : Bytes) : Except KeyError PublicKey :=
  if bytes.head?.all (· == 0) then .error .invalidPublicKey
  else match Modulus.ofNat (ofBigEndian bytes) with
    | .ok n => .ok ⟨n, publicExponent⟩
    | .error fault => .error (.rsa fault)

/-- Whether a signature is one of the message. It is a number modulo the modulus, so that a
larger one counts as its remainder. -/
def verify (key : PublicKey) (message signature : Bytes) : Bool :=
  let bits := key.modulus.encodedBits
  let encoded := Modular.pow (ofBigEndian signature) key.exponent key.modulus.val
  signature.length == key.modulus.length &&
    Pss.check bits (sha256 message) (bigEndian (Pss.encodedLength bits) encoded)

/-- Shortest modulus of a key that can sign, in bytes. -/
def minLength : Nat := 128

/-- Longest modulus of a key that can sign, in bytes. -/
def maxLength : Nat := 512

/-- Whether the numbers of a private key belong together. -/
def Consistent (n e d p q : Nat) : Prop :=
  e % 2 = 1 ∧ 1 < e ∧ e < 2 ^ 33 ∧ e < n ∧ 1 < p ∧ 1 < q ∧ p * q = n ∧
    e * d % (p - 1) = 1 ∧ e * d % (q - 1) = 1

instance (n e d p q : Nat) : Decidable (Consistent n e d p q) := by
  unfold Consistent
  infer_instance

structure PrivateKey where
  modulus : Modulus
  exponent : Nat
  secret : Nat
  p : Nat
  q : Nat
  consistent : Consistent modulus.val exponent secret p q
  minLength_le : minLength ≤ modulus.length
deriving DecidableEq

namespace PrivateKey

/-- The key of modulus, exponents and factors, if they belong together. An odd modulus that no
public key has is only too short or too long. -/
def ofNumbers (n e d p q : Nat) : Except KeyError PrivateKey :=
  match Modulus.ofNat n with
  | .error _ =>
    if n % 2 = 1 ∧ Consistent n e d p q then .error (.unsupportedKeyType (byteWidth n))
    else .error .invalidPrivateKey
  | .ok modulus =>
    if consistent : Consistent modulus.val e d p q then
      if long : minLength ≤ modulus.length then .ok ⟨modulus, e, d, p, q, consistent, long⟩
      else .error (.unsupportedKeyType modulus.length)
    else .error .invalidPrivateKey

def publicKey (key : PrivateKey) : PublicKey :=
  ⟨key.modulus, key.exponent⟩

/-- A power of a number with the secret exponent: found for either factor and put together, if
the factors have no common divisor. -/
def power (key : PrivateKey) (c : Nat) : Nat :=
  match Modular.inverse? key.q key.p with
  | none => Modular.pow c key.secret key.modulus.val
  | some coefficient =>
    let a := Modular.pow c (key.secret % (key.p - 1)) key.p
    let b := Modular.pow c (key.secret % (key.q - 1)) key.q
    b + key.q * ((a + (key.p - b % key.p)) * coefficient % key.p)

/-- The signature of a message with a salt. A result that the public half does not take back,
which factors that are not prime give, is refused. -/
def sign (key : PrivateKey) (salt : Octets 32) (message : Bytes) : Except KeyError Bytes :=
  match Pss.encode? key.modulus.encodedBits (sha256 message) salt.bytes with
  | none => .error (.rsa .internal)
  | some encoded =>
    let signature := key.power (ofBigEndian encoded)
    if Modular.pow signature key.exponent key.modulus.val = ofBigEndian encoded then
      .ok (bigEndian key.modulus.length signature)
    else .error (.rsa .internal)

end PrivateKey

end CryptoConditions.Rsa
