import CryptoConditions.Fulfillment.Assembly

/-! Reading fulfillments. A threshold that is read keeps the choice of revealed
parts that its sender made, and fulfillments may not be nested without end. -/

namespace CryptoConditions.Fulfillment

/-- Deepest level below the root. -/
def maxNesting : Nat := 16

abbrev Step (α : Type) : Type := StateT Bytes (Except ConditionError) α

def codecError (error : CodecError) : ConditionError :=
  .fulfillment (.codec error)

def readUint : Step Nat := Wire.Reader.uint.orThrow codecError

def readOctets : Step Bytes := Wire.Reader.octets.orThrow codecError

/-- What a step reads, if it leaves nothing. -/
def whole {α : Type} (step : Step α) (bytes : Bytes) : Except ConditionError α := do
  let (a, rest) ← step bytes
  let _ ← Wire.Reader.finish.orThrow codecError rest
  return a

/-- A way to read a payload whose type has a number. -/
abbrev PayloadReader : Type := Nat → Bytes → Except ConditionError Fulfillment

def readFrame (read : PayloadReader) : Step Fulfillment := do
  let type ← (Wire.Reader.fixed 2).orThrow codecError
  let payload ← readOctets
  read type payload

def ofEd25519Payload (payload : Bytes) : Except ConditionError Fulfillment :=
  if payload.length ≠ 96 then .error (.fulfillment (.ed25519PayloadLength payload.length))
  else match (Octets.ofBytes? 32 (payload.take 32)).bind Ed25519.PublicKey.ofOctets? with
    | none => .error (.fulfillment .ed25519Key)
    | some key => ofEd25519 key (some (payload.drop 32))

def ofRsaPayload (payload : Bytes) : Except ConditionError Fulfillment :=
  let half := payload.length / 2
  if payload.length % 2 ≠ 0 then .error (.fulfillment .rsaPayloadHalves)
  else if half < Rsa.minLength ∨ Rsa.maxLength < half then
    .error (.fulfillment (.rsaModulusLength half))
  else match Rsa.PublicKey.ofModulus (payload.take half) with
    | .error error => .error (.fulfillment (.key error))
    | .ok key => ofRsa key (some (payload.drop half))

def ofTimeoutPayload (payload : Bytes) : Except ConditionError Fulfillment := do
  let expiry ← whole readUint payload
  return ofTimeout (UInt64.ofNat expiry)

def ofPrefixPayload (read : PayloadReader) (payload : Bytes) :
    Except ConditionError Fulfillment := do
  let (lead, sub) ← whole (do return (← readOctets, ← readFrame read)) payload
  ofPrefix lead sub

/-- A weight and one of two: a fulfillment, which is revealed, or a condition. -/
def readEntry (read : PayloadReader) : Step (Fulfillment × Bool) := do
  let weight ← readUint
  if 2 ^ 32 ≤ weight then throw .weight
  let shown ← readOctets
  let hidden ← readOctets
  match shown, hidden with
  | _ :: _, [] => do
    let sub ← whole (readFrame read) shown
    return (sub.withWeight (← Weight.ofNat weight), true)
  | [], _ :: _ => do
    let condition ← Condition.ofBinary hidden
    return (withheld ⟨condition, ← Weight.ofNat weight, none⟩, false)
  | _, _ => throw (.fulfillment .entryParts)

def readEntries (read : PayloadReader) : (count : Nat) → Step (List (Fulfillment × Bool))
  | 0 => return []
  | count + 1 => return (← readEntry read) :: (← readEntries read count)

def readThreshold (read : PayloadReader) : Step (Nat × List (Fulfillment × Bool)) := do
  let needed ← (Wire.Reader.fixed 4).orThrow codecError
  let count ← readUint
  if count = 0 ∨ Threshold.maxParts < count then
    throw (.fulfillment (.declaredCount count))
  return (needed, ← readEntries read count)

def revealedWeight (entries : List (Fulfillment × Bool)) : Nat :=
  ((entries.filter Prod.snd).map fun entry => entry.1.weight.toNat).sum

/-- A threshold with the entries that its sender revealed. -/
def ofEntries (needed : UInt32) (entries : List (Fulfillment × Bool)) :
    Except ConditionError Fulfillment := do
  Threshold.checkShape needed entries.length
  if revealedWeight entries < needed.toNat then throw (.fulfillment .revealedWeight)
  let parts := Threshold.arrange (entries.map fun entry => (entry.1.commitment, entry))
  let condition ← Threshold.condition needed (parts.map Prod.fst)
  return threshold Weight.one needed (parts.map fun part => part.2.1)
    (.revealed (parts.map fun part => part.2.2)) condition

def ofThresholdPayload (read : PayloadReader) (payload : Bytes) :
    Except ConditionError Fulfillment := do
  if Threshold.maxPayload < payload.length then throw (.payloadTooLarge payload.length)
  let (needed, entries) ← whole (readThreshold read) payload
  ofEntries (UInt32.ofNat needed) entries

/-- The fulfillment of a type's number and a payload, with so many levels to go. -/
def ofPayload : (levels : Nat) → PayloadReader
  | 0, _, _ => .error (.fulfillment (.nesting maxNesting))
  | levels + 1, type, payload =>
    match ConditionType.ofId? type with
    | none => .error (.fulfillment (.unknownType type))
    | some .preimage => .ok (preimage Weight.one payload)
    | some .prefixed => ofPrefixPayload (ofPayload levels) payload
    | some .threshold => ofThresholdPayload (ofPayload levels) payload
    | some .rsa => ofRsaPayload payload
    | some .ed25519 => ofEd25519Payload payload
    | some .timeout => ofTimeoutPayload payload

/-- Reads the root and all levels below it. -/
def ofRoot : PayloadReader :=
  ofPayload (maxNesting + 1)

def ofBinary (bytes : Bytes) : Except ConditionError Fulfillment :=
  whole (readFrame ofRoot) bytes

def ofUri (uri : String) : Except ConditionError Fulfillment :=
  match Uri.parseFulfillment uri with
  | .error error => .error (codecError error)
  | .ok parts => ofRoot parts.type parts.payload

end CryptoConditions.Fulfillment
