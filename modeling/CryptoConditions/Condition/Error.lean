import CryptoConditions.Condition.Features
import CryptoConditions.Key.Error
import CryptoConditions.Wire.Error

/-! Faults of conditions and fulfillments, and their wording. -/

namespace CryptoConditions

/-- Why fields make no condition, or a condition is not the expected one. -/
inductive ConditionFault where
  | codec (error : CodecError)
  | unknownType (id : Nat)
  | unknownFeatures (bits : Nat)
  | lacksFeatures (type : ConditionType) (found : Features)
  | simpleFeatures (type : ConditionType) (found : Features)
  | hashLength (found : Nat)
  | otherCondition (proves expected : String)
  | noUri
  | noPublicKey
  | noThreshold
  | declaredFeatures (declared found : Nat)
  | describedCondition (described uri : String)
  | noOwner
deriving DecidableEq

def ConditionFault.message : ConditionFault → String
  | codec error => error.message
  | unknownType id => s!"unknown type id {Numeral.decimal id}"
  | unknownFeatures bits => s!"unknown bitmask bits 0x{Numeral.hex bits}"
  | lacksFeatures type found => s!"bitmask {found.hex} lacks the bits of type {type.name}"
  | simpleFeatures type found =>
    s!"simple type {type.name} must carry bitmask {type.features.hex}, found {found.hex}"
  | hashLength found => s!"hash must be 32 bytes, found {Numeral.decimal found}"
  | otherCondition proves expected => s!"fulfillment proves {proves}, expected {expected}"
  | noUri => "condition node without uri"
  | noPublicKey => "signature node without public_key"
  | noThreshold => "threshold node without threshold"
  | declaredFeatures declared found =>
    s!"details declare bitmask 0x{Numeral.hex declared}, tree has 0x{Numeral.hex found}"
  | describedCondition described uri => s!"details describe {described}, uri is {uri}"
  | noOwner => "an output needs at least one owner"

/-- Why bytes or parts make no fulfillment, or a fulfillment proves nothing. -/
inductive FulfillmentFault where
  | codec (error : CodecError)
  | key (error : KeyError)
  | nesting (limit : Nat)
  | unknownType (id : Nat)
  | notValid (type : ConditionType)
  | withheld
  | ed25519SignatureLength (found : Nat)
  | ed25519Unsigned
  | ed25519PayloadLength (found : Nat)
  | ed25519Key
  | rsaSignatureLength (expected found : Nat)
  | rsaUnsigned
  | rsaPayloadHalves
  | rsaModulusLength (found : Nat)
  | declaredCount (count : Nat)
  | entryParts
  | revealedWeight
  | zeroThreshold
  | noSubfulfillments
  | tooManySums (limit : Nat)
  | inputNotFulfilled
deriving DecidableEq

def FulfillmentFault.message : FulfillmentFault → String
  | codec error => error.message
  | key error => error.message
  | nesting limit => s!"nesting deeper than {Numeral.decimal limit}"
  | unknownType id => s!"unknown type id {Numeral.decimal id}"
  | notValid type => s!"{type.name} fulfillment does not validate"
  | withheld => "a bare condition has no fulfillment payload"
  | ed25519SignatureLength found =>
    s!"ed25519 signature must be 64 bytes, found {Numeral.decimal found}"
  | ed25519Unsigned => "ed25519 fulfillment is unsigned"
  | ed25519PayloadLength found =>
    s!"ed25519 payload must be 96 bytes, found {Numeral.decimal found}"
  | ed25519Key => "invalid ed25519 public key"
  | rsaSignatureLength expected found =>
    s!"rsa signature must be {Numeral.decimal expected} bytes, found {Numeral.decimal found}"
  | rsaUnsigned => "rsa fulfillment is unsigned"
  | rsaPayloadHalves => "rsa payload must split into equal modulus and signature halves"
  | rsaModulusLength found =>
    s!"rsa modulus of {Numeral.decimal found} bytes is outside 128..=512"
  | declaredCount count => s!"threshold declares {Numeral.decimal count} subfulfillments"
  | entryParts => "threshold entry must carry exactly one of fulfillment or condition"
  | revealedWeight => "revealed subfulfillments do not reach the threshold"
  | zeroThreshold => "threshold must be at least 1"
  | noSubfulfillments => "threshold has no subfulfillments"
  | tooManySums limit => s!"threshold weights reach more than {Numeral.decimal limit} distinct sums"
  | inputNotFulfilled => "input is not fulfilled"

/-- Why a key or a node is of the wrong type. -/
inductive TypeFault where
  | rsaModulusLength (found : Nat)
  | keyLength (length : Nat)
  | unknownType (id : Nat)
  | keyUnderNode (key : KeyType) (node : ConditionType)
  | notStructural (type : ConditionType)
  | jointSignature (key : KeyType)
deriving DecidableEq

def TypeFault.message : TypeFault → String
  | rsaModulusLength found => s!"rsa modulus of {Numeral.decimal found} bytes is outside 128..=512"
  | keyLength length => (KeyError.unsupportedKeyType length).message
  | unknownType id => s!"unknown type id {Numeral.decimal id}"
  | keyUnderNode key node => s!"{key.name} key under a {node.name} node"
  | notStructural type => s!"{type.name} cannot be described structurally"
  | jointSignature key => s!"joint signatures must be ed25519, found {key.name}"

/-- Why a condition or fulfillment cannot be built, read or believed.
`sizeOverflow` says that a size does not fit 64 bits: no statement about the
input, but the end of the computation. -/
inductive ConditionError where
  | condition (fault : ConditionFault)
  | fulfillment (fault : FulfillmentFault)
  | signature
  | type (fault : TypeFault)
  | insufficientThreshold (threshold available : Nat)
  | payloadTooLarge (length : Nat)
  | tooManySubfulfillments (count : Nat)
  | weight
  | sizeOverflow
deriving DecidableEq

namespace ConditionError

def message : ConditionError → String
  | condition fault => s!"Invalid condition: {fault.message}"
  | fulfillment fault => s!"Invalid fulfillment: {fault.message}"
  | signature => "Invalid signature"
  | type fault => s!"Invalid type: {fault.message}"
  | insufficientThreshold threshold available =>
    s!"Insufficient threshold: need weight {Numeral.decimal threshold}, at most " ++
      s!"{Numeral.decimal available} available"
  | payloadTooLarge length =>
    s!"Fulfillment payload of {Numeral.decimal length} bytes exceeds the maximum"
  | tooManySubfulfillments count => s!"Too many subfulfillments: {Numeral.decimal count}"
  | weight => "Weight must be at least 1"
  | sizeOverflow => "Size does not fit in 64 bits"

/-- A key of no supported length is a fault of type; any other fault of a key is one of the
fulfillment that needs it. -/
def ofKey : KeyError → ConditionError
  | .unsupportedKeyType length => type (.keyLength length)
  | error => fulfillment (.key error)

end ConditionError

end CryptoConditions
