import CryptoConditions.Condition.Error
import CryptoConditions.Hash.Sha256
import CryptoConditions.Wire.Reader
import CryptoConditions.Wire.Uri

/-! Conditions: what an output is locked with. A condition names its type, the
features needed to check it, a fingerprint of 32 bytes and an upper bound on
the payload of any fulfillment that satisfies it. It has one binary form and
one URI. -/

namespace CryptoConditions

structure Condition where
  type : ConditionType
  features : Features
  hash : Octets 32
  size : UInt64
deriving DecidableEq

namespace Condition

/-- A condition from its fields. A simple type needs its own features and no more. -/
def ofParts (type : ConditionType) (features : Features) (hash : Bytes) (size : UInt64) :
    Except ConditionError Condition :=
  if !features.contains type.features then
    .error (.condition (.lacksFeatures type features))
  else if !type.isCompound && features != type.features then
    .error (.condition (.simpleFeatures type features))
  else match Octets.ofBytes? 32 hash with
    | none => .error (.condition (.hashLength hash.length))
    | some hash => .ok ⟨type, features, hash, size⟩

/-- A condition from numbers as they stand on the wire. -/
def ofWire (type features : Nat) (hash : Bytes) (size : Nat) : Except ConditionError Condition :=
  match ConditionType.ofId? type with
  | none => .error (.condition (.unknownType type))
  | some type => match Features.ofNat? features with
    | none => .error (.condition (.unknownFeatures features))
    | some features => ofParts type features hash (UInt64.ofNat size)

/-- Type, features, hash and size, one after the other. -/
def binary (c : Condition) : Bytes :=
  bigEndian 2 c.type.id ++ Wire.uint c.features.toNat ++ Wire.octets c.hash.bytes ++
    Wire.uint c.size.toNat

def binaryLength (c : Condition) : Nat :=
  2 + Wire.uintLength c.features.toNat + Wire.octetsLength 32 + Wire.uintLength c.size.toNat

theorem binary_length (c : Condition) : c.binary.length = c.binaryLength := by
  simp [binary, binaryLength, c.hash.length_eq, Nat.add_assoc]

def codecError (error : CodecError) : ConditionError :=
  .condition (.codec error)

/-- The condition in front of the remaining bytes. -/
def read : StateT Bytes (Except ConditionError) Condition := do
  let type ← (Wire.Reader.fixed 2).orThrow codecError
  let features ← Wire.Reader.uint.orThrow codecError
  let hash ← Wire.Reader.octets.orThrow codecError
  let size ← Wire.Reader.uint.orThrow codecError
  ofWire type features hash size

def ofBinary (bytes : Bytes) : Except ConditionError Condition := do
  let (c, rest) ← read bytes
  let _ ← Wire.Reader.finish.orThrow codecError rest
  return c

def uriParts (c : Condition) : Uri.ConditionParts :=
  ⟨c.type.id, c.features.toNat, c.hash.bytes, c.size.toNat⟩

def uri (c : Condition) : String :=
  c.uriParts.format

def ofUri (uri : String) : Except ConditionError Condition :=
  match Uri.parseCondition uri with
  | .error error => .error (codecError error)
  | .ok parts => ofWire parts.type parts.features parts.hash parts.size

end Condition

/-- What a part of a threshold counts; never zero. -/
structure Weight where
  val : UInt32
  pos : 0 < val
deriving DecidableEq

namespace Weight

def one : Weight := ⟨1, by decide⟩

def toNat (w : Weight) : Nat := w.val.toNat

/-- Zero and numbers of more than 32 bits are no weights. -/
def ofNat (n : Nat) : Except ConditionError Weight :=
  if n < 2 ^ 32 then
    if h : 0 < UInt32.ofNat n then .ok ⟨UInt32.ofNat n, h⟩ else .error .weight
  else .error .weight

end Weight

/-- A condition as it stands in a tree: with the weight it carries in the threshold above it
and, for a signature, the key to show with it. -/
structure Commitment where
  condition : Condition
  weight : Weight
  publicKey : Option Bytes
deriving DecidableEq

/-- A condition with the default weight and no key. -/
def Commitment.plain (condition : Condition) : Commitment :=
  ⟨condition, Weight.one, none⟩

end CryptoConditions
