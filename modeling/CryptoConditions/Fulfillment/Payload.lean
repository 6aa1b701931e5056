import CryptoConditions.Fulfillment.Basic

/-! The written form of a fulfillment: a payload by type, in a frame that names
the type. Secrets that are not revealed are not in it. -/

namespace CryptoConditions.Fulfillment

/-- A payload with its type in front. -/
def frame (type : ConditionType) (payload : Bytes) : Bytes :=
  bigEndian 2 type.id ++ Wire.octets payload

mutual

/-- Fails where a secret that has to be revealed is not known. -/
def payload : Fulfillment → Except ConditionError Bytes
  | preimage _ bytes => .ok bytes
  | prefixed _ lead sub _ => do
    let shown ← sub.payload
    return Wire.octets lead ++ frame sub.type shown
  | ed25519 _ _ none => .error (.fulfillment .ed25519Unsigned)
  | ed25519 _ key (some signature) => .ok (key.octets.bytes ++ signature.bytes)
  | rsa _ _ _ none => .error (.fulfillment .rsaUnsigned)
  | rsa _ key _ (some signature) => .ok (key.modulus.bytes ++ signature.bytes)
  | threshold _ needed subs selection _ =>
    match selection with
    | .unsatisfied available => .error (.insufficientThreshold needed.toNat available)
    | .tooLarge length => .error (.payloadTooLarge length)
    | .revealed flags => do
      let shown ← entries subs flags
      return Threshold.header needed subs.length ++ shown
  | timeout _ expiry => .ok (expiryBytes expiry)
  | withheld _ => .error (.fulfillment .withheld)

/-- The entries of a threshold, revealed or hidden by the flags. -/
def entries : List Fulfillment → List Bool → Except ConditionError Bytes
  | sub :: subs, true :: flags => do
    let shown ← sub.payload
    let rest ← entries subs flags
    return Threshold.revealedEntry sub.commitment (frame sub.type shown) ++ rest
  | sub :: subs, false :: flags => do
    let rest ← entries subs flags
    return Threshold.hiddenEntry sub.commitment ++ rest
  | _, _ => .ok []

end

def binary (f : Fulfillment) : Except ConditionError Bytes := do
  return frame f.type (← f.payload)

def uri (f : Fulfillment) : Except ConditionError String := do
  return (⟨f.type.id, ← f.payload⟩ : Uri.FulfillmentParts).format

/-- The URI, or that of the condition where there is no payload. -/
def display (f : Fulfillment) : String :=
  match f.uri with
  | .ok uri => uri
  | .error _ => f.condition.uri

end CryptoConditions.Fulfillment
