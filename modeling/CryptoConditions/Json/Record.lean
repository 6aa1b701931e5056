import CryptoConditions.Json.Meaning

/-! Records from JSON. A record is written as an object, whose unknown fields do not
matter, or as the array of its fields in their order. -/

namespace CryptoConditions.Json

/-- A way to read what is written in a limited depth. -/
abbrev Decoder (α : Type) : Type := (room : Nat) → Written → Option α

namespace Decoder

def value : Decoder Json := meaning?

def string : Decoder String
  | _, .string pieces => text? pieces
  | _, _ => none

/-- An integer of at most `bits` bits without a sign. -/
def unsigned (bits : Nat) : Decoder Nat
  | _, .number literal => literal.unsigned? bits
  | _, _ => none

def uint32 : Decoder UInt32 :=
  fun room w => (unsigned 32 room w).map UInt32.ofNat

def uint64 : Decoder UInt64 :=
  fun room w => (unsigned 64 room w).map UInt64.ofNat

def nullable {α : Type} (decode : Decoder α) : Decoder (Option α)
  | _, .null => some none
  | room, w => (decode room w).map some

def list {α : Type} (decode : Decoder α) : Decoder (List α)
  | room + 1, .array items => items.mapM (decode room)
  | _, _ => none

/-- One of some names: as a string, or as the name of the only field of an object, which is
null. -/
def choice {α : Type} (ofName? : String → Option α) : Decoder α
  | _, .string pieces => do ofName? (← text? pieces)
  | _ + 1, .object [(name, .null)] => do ofName? (← text? name)
  | _, _ => none

end Decoder

/-- What is written for a field. An object may lack a field; an array may be cut short. -/
inductive Slot where
  | given (w : Written)
  | absent
  | cut

namespace Slot

def required {α : Type} (decode : Decoder α) (room : Nat) : Slot → Option α
  | given w => decode room w
  | absent | cut => none

/-- A field that may be null, or lack in an object. -/
def optional {α : Type} (decode : Decoder α) (room : Nat) : Slot → Option (Option α)
  | given w => Decoder.nullable decode room w
  | absent => some none
  | cut => none

/-- A field that may be null or lack, also at the end of an array. -/
def omissible {α : Type} (decode : Decoder α) (room : Nat) : Slot → Option (Option α)
  | given w => Decoder.nullable decode room w
  | absent | cut => some none

end Slot

def namedFields (fields : List (List Piece × Written)) : Option (List (String × Written)) :=
  fields.mapM fun (name, w) => (text? name).map fun name => (name, w)

/-- The one field of a name. -/
def slotNamed? (fields : List (String × Written)) (name : String) : Option Slot :=
  match fields.filter fun field => field.1 == name with
  | [] => some .absent
  | [(_, w)] => some (.given w)
  | _ => none

/-- The fields of an array by their place. -/
def slotsInOrder : (count : Nat) → List Written → Option (List Slot)
  | 0, [] => some []
  | 0, _ :: _ => none
  | count + 1, [] => some (List.replicate (count + 1) .cut)
  | count + 1, w :: rest => (slotsInOrder count rest).map (.given w :: ·)

/-- What is written for the fields of a record. No known field may stand twice in an object, and
no item may follow the last field in an array. -/
def slots? (names : List String) : Written → Option (List Slot)
  | .object fields => do
    let named ← namedFields fields
    names.mapM (slotNamed? named)
  | .array items => slotsInOrder names.length items
  | _ => none

/-- The whole of a text, read in the depth that texts may have. -/
def decode? {α : Type} (decode : Decoder α) (text : String) : Option α := do
  decode maxDepth (← Written.ofText? text)

end CryptoConditions.Json
