import CryptoConditions.Fulfillment.Payload
import CryptoConditions.Time.Instant

/-! Putting fulfillments together: from keys and signatures, from a fulfillment
and what its messages start with, and from the parts of a threshold. -/

namespace CryptoConditions

/-- Items in the canonical order of what they commit to. -/
def Threshold.arrange {α : Type} (items : List (Commitment × α)) : List (Commitment × α) :=
  items.mergeSort fun a b => a.1.precedes b.1

namespace Fulfillment

def ofEd25519 (key : Ed25519.PublicKey) (signature : Option Bytes) :
    Except ConditionError Fulfillment :=
  match signature with
  | none => .ok (ed25519 Weight.one key none)
  | some bytes => match Octets.ofBytes? 64 bytes with
    | some signature => .ok (ed25519 Weight.one key (some signature))
    | none => .error (.fulfillment (.ed25519SignatureLength bytes.length))

def ofRsa (key : Rsa.PublicKey) (signature : Option Bytes) : Except ConditionError Fulfillment :=
  let length := key.modulus.length
  if long : Rsa.minLength ≤ length then
    match signature with
    | none => .ok (rsa Weight.one key long none)
    | some bytes => match Octets.ofBytes? length bytes with
      | some signature => .ok (rsa Weight.one key long (some signature))
      | none => .error (.fulfillment (.rsaSignatureLength length bytes.length))
  else .error (.type (.rsaModulusLength length))

/-- A fulfillment without its signature: good only for its condition. -/
def ofPublicKey : PublicKey → Except ConditionError Fulfillment
  | .ed25519 key => ofEd25519 key none
  | .rsa key => ofRsa key none

/-- A signature made elsewhere; only its length is looked at. -/
def ofSignature (signature : Bytes) : PublicKey → Except ConditionError Fulfillment
  | .ed25519 key => ofEd25519 key (some signature)
  | .rsa key => ofRsa key (some signature)

def sign (pair : KeyPair) (salt : Octets 32) (message : Bytes) :
    Except ConditionError Fulfillment :=
  match pair.sign salt message with
  | .ok signature => ofSignature signature pair.publicKey
  | .error error => .error (.ofKey error)

/-- A fulfillment of messages that `lead` is put in front of. -/
def ofPrefix (lead : Bytes) (sub : Fulfillment) : Except ConditionError Fulfillment := do
  let inner := sub.condition
  let size ← Threshold.checkSize
    (Wire.octetsLength lead.length + 2 + Wire.octetsLength inner.size.toNat)
  return prefixed Weight.one lead sub
    ⟨.prefixed, ConditionType.prefixed.features.union inner.features,
      sha256 (lead ++ inner.binary), UInt64.ofNat size⟩

def ofTimeout (expiry : UInt64) : Fulfillment :=
  timeout Weight.one expiry

/-- A timeout some seconds from now, at the earliest at time zero. There is none where the
calendar has no such instant, however far back. -/
def ofTimeoutAfter? (now : Instant) (seconds : Int) : Option Fulfillment :=
  (Instant.ofSeconds? (now.seconds + seconds)).map fun expiry =>
    ofTimeout (UInt64.ofNat expiry.seconds.toNat)

/-- What a threshold has to know of a part. -/
def share (part : Commitment) (sub : Fulfillment) : Threshold.Share :=
  ⟨part, match sub.binary with
    | .ok binary => some binary.length
    | .error _ => none⟩

/-- A threshold over parts in any order, which reveals as little as it can. Parts that are
withheld count for the condition but are never revealed. -/
def ofThreshold (needed : UInt32) (subs : List Fulfillment) :
    Except ConditionError Fulfillment := do
  Threshold.checkShape needed subs.length
  let parts := Threshold.arrange (subs.map fun sub => (sub.commitment, sub))
  let condition ← Threshold.condition needed (parts.map Prod.fst)
  let selection := Threshold.select needed (parts.map fun part => share part.1 part.2)
  return threshold Weight.one needed (parts.map Prod.snd) selection condition

end Fulfillment

end CryptoConditions
