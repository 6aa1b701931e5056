import CryptoConditions.Fulfillment.Basic
import CryptoConditions.Time.Instant
import CryptoConditions.Wire.Reader

/-! Whether a fulfillment satisfies its condition for a message. -/

namespace CryptoConditions.Fulfillment

/-- The time that a message of decimal digits names. -/
def time? (message : Bytes) : Option Int :=
  Numeral.int64? (message.map fun byte => Char.ofNat byte.toNat)

mutual

def validate : Fulfillment → Bytes → Bool
  | preimage .., _ => true
  | prefixed _ lead sub _, message => sub.validate (lead ++ message)
  | ed25519 _ key (some signature), message => Ed25519.verify key message signature.bytes
  | rsa _ key _ (some signature), message => Rsa.verify key message signature.bytes
  | threshold _ needed subs _ _, message => decide (needed.toNat ≤ validWeight subs message)
  | timeout _ expiry, message => (time? message).any fun now => decide (now ≤ (expiry.toNat : Int))
  | ed25519 _ _ none, _ | rsa _ _ _ none, _ | withheld _, _ => false

/-- The weight of the parts that can be revealed and hold, whether the payload shows them
or not. -/
def validWeight : List Fulfillment → Bytes → Nat
  | [], _ => 0
  | sub :: subs, message =>
    (if sub.canReveal && sub.validate message then sub.weight.toNat else 0) +
      validWeight subs message

end

/-- The weight of the parts that hold for the segment that is theirs: octets in the order of the
parts that can be revealed, with nothing left over. -/
def segmentsWeight? : List Fulfillment → Bytes → Option Nat
  | [], message => if message.isEmpty then some 0 else none
  | sub :: subs, message =>
    if sub.canReveal then
      match Wire.Reader.octets message with
      | (.error _, _) => none
      | (.ok segment, rest) => (segmentsWeight? subs rest).map fun weight =>
        (if sub.validate segment then sub.weight.toNat else 0) + weight
    else segmentsWeight? subs message

/-- Validation of a threshold with a message for each part. -/
def validateSegments (needed : UInt32) (subs : List Fulfillment) (message : Bytes) : Bool :=
  (segmentsWeight? subs message).any fun weight => decide (needed.toNat ≤ weight)

/-- Validation at a time: the message is its whole seconds in decimal form. -/
def validateAt (f : Fulfillment) (now : Instant) : Bool :=
  f.validate (utf8 (String.ofList (Numeral.signedChars now.seconds)))

/-- Why a fulfillment does not satisfy a condition for a message. -/
def verify (f : Fulfillment) (condition : Condition) (message : Bytes) :
    Except ConditionError Unit :=
  if f.condition ≠ condition then
    .error (.condition (.otherCondition f.condition.uri condition.uri))
  else if f.validate message then .ok ()
  else match f with
    | ed25519 .. | rsa .. => .error .signature
    | _ => .error (.fulfillment (.notValid f.type))

end CryptoConditions.Fulfillment
