import CryptoConditions.Key.Basic
import CryptoConditions.Threshold.Selection

/-! Fulfillments: what satisfies a condition, or as much of it as is known. The
condition of a simple fulfillment follows from its data; a compound one keeps
the condition that was computed when it was put together. -/

namespace CryptoConditions

inductive Fulfillment where
  /-- Bytes whose hash is in the condition. -/
  | preimage (weight : Weight) (bytes : Bytes)
  /-- A fulfillment of messages with `lead` put in front. -/
  | prefixed (weight : Weight) (lead : Bytes) (sub : Fulfillment) (condition : Condition)
  | ed25519 (weight : Weight) (key : Ed25519.PublicKey) (signature : Option (Octets 64))
  | rsa (weight : Weight) (key : Rsa.PublicKey) (long : Rsa.minLength ≤ key.modulus.length)
      (signature : Option (Octets key.modulus.length))
  /-- Parts in canonical order, of which some with enough weight have to hold. -/
  | threshold (weight : Weight) (needed : UInt32) (subs : List Fulfillment)
      (selection : Selection) (condition : Condition)
  /-- A time in seconds after which nothing is satisfied. -/
  | timeout (weight : Weight) (expiry : UInt64)
  /-- A condition whose fulfillment is not known. -/
  | withheld (commitment : Commitment)

namespace Fulfillment

def weight : Fulfillment → Weight
  | preimage w _ | prefixed w _ _ _ | ed25519 w _ _ | rsa w _ _ _ | threshold w _ _ _ _
  | timeout w _ => w
  | withheld commitment => commitment.weight

def withWeight (w : Weight) : Fulfillment → Fulfillment
  | preimage _ bytes => preimage w bytes
  | prefixed _ lead sub condition => prefixed w lead sub condition
  | ed25519 _ key signature => ed25519 w key signature
  | rsa _ key long signature => rsa w key long signature
  | threshold _ needed subs selection condition => threshold w needed subs selection condition
  | timeout _ expiry => timeout w expiry
  | withheld commitment => withheld ⟨commitment.condition, w, commitment.publicKey⟩

def type : Fulfillment → ConditionType
  | preimage .. => .preimage
  | prefixed .. => .prefixed
  | ed25519 .. => .ed25519
  | rsa .. => .rsa
  | threshold .. => .threshold
  | timeout .. => .timeout
  | withheld commitment => commitment.condition.type

/-- A condition that shows no more than its type does. -/
def simpleCondition (type : ConditionType) (hash : Octets 32) (size : Nat) : Condition :=
  ⟨type, type.features, hash, UInt64.ofNat size⟩

def expiryBytes (expiry : UInt64) : Bytes :=
  Wire.uint expiry.toNat

def condition : Fulfillment → Condition
  | preimage _ bytes => simpleCondition .preimage (sha256 bytes) bytes.length
  | prefixed _ _ _ condition => condition
  | ed25519 _ key _ => simpleCondition .ed25519 key.octets 96
  | rsa _ key _ _ => simpleCondition .rsa (sha256 key.modulus.bytes) (2 * key.modulus.length)
  | threshold _ _ _ _ condition => condition
  | timeout _ expiry =>
    simpleCondition .timeout (sha256 (expiryBytes expiry)) (expiryBytes expiry).length
  | withheld commitment => commitment.condition

/-- The key to show with the condition. -/
def publicKey : Fulfillment → Option Bytes
  | ed25519 _ key _ => some key.octets.bytes
  | rsa _ key _ _ => some key.modulus.bytes
  | withheld commitment => commitment.publicKey
  | _ => none

/-- What the fulfillment commits to; it tells no secret. -/
def commitment (f : Fulfillment) : Commitment :=
  ⟨f.condition, f.weight, f.publicKey⟩

/-- Whether there is a payload. -/
def canReveal : Fulfillment → Bool
  | preimage .. | timeout .. => true
  | prefixed _ _ sub _ => sub.canReveal
  | ed25519 _ _ signature => signature.isSome
  | rsa _ _ _ signature => signature.isSome
  | threshold _ _ _ (.revealed _) _ => true
  | threshold .. | withheld _ => false

end Fulfillment

end CryptoConditions
