import CryptoConditions.Fulfillment.Assembly
import CryptoConditions.Json.Record

/-! Descriptions of conditions. Keys, and thresholds over them, are described by
their parts, so that the condition can be built again from public keys alone;
any other condition goes by its URI. -/

namespace CryptoConditions

/-- Whether a node describes parts or a condition as a whole. -/
inductive DetailsKind where
  | fulfillment
  | condition
deriving DecidableEq

/-- A node of a description as it stands in a document; nothing says that it fits. -/
structure Details where
  features : UInt64
  kind : DetailsKind
  type : UInt16
  publicKey : Option String
  subs : Option (List Details)
  threshold : Option UInt32
  weight : Option UInt32
  uri : Option String

namespace DetailsKind

def name : DetailsKind → String
  | fulfillment => "fulfillment"
  | condition => "condition"

def ofName? (name : String) : Option DetailsKind :=
  if name = "fulfillment" then some fulfillment
  else if name = "condition" then some condition
  else none

end DetailsKind

namespace Details

mutual

def decEq : (a b : Details) → Decidable (a = b)
  | ⟨f, k, t, p, none, n, w, u⟩, ⟨f', k', t', p', none, n', w', u'⟩ =>
    decidable_of_iff (f = f' ∧ k = k' ∧ t = t' ∧ p = p' ∧ n = n' ∧ w = w' ∧ u = u') (by simp)
  | ⟨f, k, t, p, some s, n, w, u⟩, ⟨f', k', t', p', some s', n', w', u'⟩ =>
    match decEqList s s' with
    | isTrue h =>
      decidable_of_iff (f = f' ∧ k = k' ∧ t = t' ∧ p = p' ∧ n = n' ∧ w = w' ∧ u = u')
        (by simp [h])
    | isFalse h => isFalse (by simp [h])
  | ⟨_, _, _, _, none, _, _, _⟩, ⟨_, _, _, _, some _, _, _, _⟩
  | ⟨_, _, _, _, some _, _, _, _⟩, ⟨_, _, _, _, none, _, _, _⟩ => isFalse (by simp)

def decEqList : (a b : List Details) → Decidable (a = b)
  | [], [] => isTrue rfl
  | a :: as, b :: bs =>
    match decEq a b, decEqList as bs with
    | isTrue h, isTrue t => isTrue (by rw [h, t])
    | isFalse h, _ => isFalse (by simp [h])
    | _, isFalse t => isFalse (by simp [t])
  | [], _ :: _ | _ :: _, [] => isFalse (by simp)

end

instance : DecidableEq Details := decEq

/-- A field that is written only if there is something to write. -/
def field {α : Type} (name : String) (f : α → Json) : Option α → List (String × Json)
  | none => []
  | some a => [(name, f a)]

mutual

def toJson : Details → Json
  | ⟨features, kind, type, publicKey, subs, threshold, weight, uri⟩ =>
    .object ([("bitmask", .ofUInt64 features), ("type", .string kind.name),
      ("type_id", .ofUInt64 type.toUInt64)] ++
      field "public_key" .string publicKey ++
      (match subs with
      | none => []
      | some subs => [("subfulfillments", .array (listToJson subs))]) ++
      field "threshold" .ofUInt32 threshold ++ field "weight" .ofUInt32 weight ++
      field "uri" .string uri)

def listToJson : List Details → List Json
  | [] => []
  | d :: ds => toJson d :: listToJson ds

end

def fieldNames : List String :=
  ["bitmask", "type", "type_id", "public_key", "subfulfillments", "threshold", "weight", "uri"]

/-- Reads the fields of a node, given a way to read its parts. -/
def ofFields? (parts : Json.Written → Option (List Details)) (room : Nat) (w : Json.Written) :
    Option Details := do
  match ← Json.slots? fieldNames w with
  | [features, kind, type, publicKey, subs, threshold, weight, uri] => do
    let features ← features.required Json.Decoder.uint64 room
    let kind ← kind.required (Json.Decoder.choice DetailsKind.ofName?) room
    let type ← type.required (Json.Decoder.unsigned 16) room
    let publicKey ← publicKey.omissible Json.Decoder.string room
    let subs ← subs.omissible (fun _ => parts) room
    let threshold ← threshold.omissible Json.Decoder.uint32 room
    let weight ← weight.omissible Json.Decoder.uint32 room
    let uri ← uri.omissible Json.Decoder.string room
    return ⟨features, kind, UInt16.ofNat type, publicKey, subs, threshold, weight, uri⟩
  | _ => none

def items? {α : Type} (decode : Json.Written → Option α) : Json.Written → Option (List α)
  | .array items => items.mapM decode
  | _ => none

/-- Reads a node; the parts are two levels deeper, in the object and in the array of parts. -/
def ofJson? : Json.Decoder Details
  | 0, _ => none
  | 1, w => ofFields? (fun _ => none) 0 w
  | room + 2, w => ofFields? (items? (ofJson? room)) (room + 1) w

end Details

namespace Fulfillment

def opaqueDetails (c : Condition) (weight : Option UInt32) : Details :=
  ⟨UInt64.ofNat c.features.toNat, .condition, UInt16.ofNat c.type.id, none, none, none, weight,
    some c.uri⟩

def keyDetails (c : Condition) (key : PublicKey) (weight : Option UInt32) : Details :=
  ⟨UInt64.ofNat c.features.toNat, .fulfillment, UInt16.ofNat c.type.id, some key.base58, none,
    none, weight, none⟩

mutual

/-- What a fulfillment's document says of it; signatures and secrets are not in it. A weight is
told below a threshold only. -/
def details (weight : Option UInt32) : Fulfillment → Details
  | .ed25519 w key signature =>
    keyDetails (Fulfillment.ed25519 w key signature).condition (.ed25519 key) weight
  | .rsa w key long signature =>
    keyDetails (Fulfillment.rsa w key long signature).condition (.rsa key) weight
  | .threshold _ needed subs _ c =>
    ⟨UInt64.ofNat c.features.toNat, .fulfillment, UInt16.ofNat c.type.id, none,
      some (listDetails subs), some needed, weight, none⟩
  | .prefixed _ _ _ c => opaqueDetails c weight
  | .preimage w bytes => opaqueDetails (Fulfillment.preimage w bytes).condition weight
  | .timeout w expiry => opaqueDetails (Fulfillment.timeout w expiry).condition weight
  | .withheld commitment => opaqueDetails commitment.condition weight

def listDetails : List Fulfillment → List Details
  | [] => []
  | sub :: subs => details (some sub.weight.val) sub :: listDetails subs

end

end Fulfillment

namespace Details

def fail {α : Type} (fault : ConditionFault) : Except ConditionError α :=
  .error (.condition fault)

/-- The key of a node of the type, without a signature. -/
def ofKeyNode (type : ConditionType) (publicKey : Option String) :
    Except ConditionError Fulfillment :=
  match publicKey with
  | none => fail .noPublicKey
  | some text => match PublicKey.ofBase58 text with
    | .error error => .error (.ofKey error)
    | .ok key => do
      let f ← Fulfillment.ofPublicKey key
      if f.type = type then return f else throw (.type (.keyUnderNode key.type type))

def ofUriNode (uri : Option String) : Except ConditionError Fulfillment :=
  match uri with
  | none => fail .noUri
  | some uri => do return .withheld (.plain (← Condition.ofUri uri))

/-- A fulfillment that has the declared features, with its weight if there is one. -/
def declared (features : UInt64) (weight : Option UInt32) (f : Fulfillment) :
    Except ConditionError Fulfillment :=
  let found := f.condition.features.toNat
  if found ≠ features.toNat then fail (.declaredFeatures features.toNat found)
  else match weight with
    | none => .ok f
    | some weight => do return f.withWeight (← Weight.ofNat weight.toNat)

mutual

/-- The fulfillment that is described, without signatures. -/
def toFulfillment : Details → Except ConditionError Fulfillment
  | ⟨features, kind, type, publicKey, subs, threshold, weight, uri⟩ => do
    let f ← match kind with
      | .condition => ofUriNode uri
      | .fulfillment =>
        match ConditionType.ofId? type.toNat with
        | none => .error (.type (.unknownType type.toNat))
        | some .ed25519 => ofKeyNode .ed25519 publicKey
        | some .rsa => ofKeyNode .rsa publicKey
        | some .threshold =>
          match threshold with
          | none => fail .noThreshold
          | some needed => do
            let subs ← match subs with
              | none => .ok []
              | some subs => listToFulfillments subs
            Fulfillment.ofThreshold needed subs
        | some other => .error (.type (.notStructural other))
    declared features weight f

def listToFulfillments : List Details → Except ConditionError (List Fulfillment)
  | [] => .ok []
  | d :: ds => do
    let f ← toFulfillment d
    let fs ← listToFulfillments ds
    return f :: fs

end

end Details

end CryptoConditions
