import CryptoConditions.Text.Split
import CryptoConditions.Wire.Error

/-! Condition URIs `cc:type:features:hash:size` and fulfillment URIs
`cf:type:payload`. Type and features are lower-case hexadecimal, the size is
decimal, hash and payload are base64. Only the canonical spelling of a number
is accepted, so that each value has one text. -/

namespace CryptoConditions.Uri

structure ConditionParts where
  type : Nat
  features : Nat
  hash : Bytes
  size : Nat
deriving DecidableEq

structure FulfillmentParts where
  type : Nat
  payload : Bytes
deriving DecidableEq

def conditionScheme : List Char := ['c', 'c']

def fulfillmentScheme : List Char := ['c', 'f']

def ConditionParts.chars (parts : ConditionParts) : List Char :=
  conditionScheme ++ ':' :: Numeral.hexChars parts.type ++ ':' :: Numeral.hexChars parts.features ++
    ':' :: Base64.encodeChars parts.hash ++ ':' :: Numeral.decimalChars parts.size

def FulfillmentParts.chars (parts : FulfillmentParts) : List Char :=
  fulfillmentScheme ++ ':' :: Numeral.hexChars parts.type ++ ':' :: Base64.encodeChars parts.payload

def ConditionParts.format (parts : ConditionParts) : String :=
  String.ofList parts.chars

def FulfillmentParts.format (parts : FulfillmentParts) : String :=
  String.ofList parts.chars

def fail {α : Type} (fault : UriFault) : Except CodecError α :=
  .error (.uri fault)

def hexField (field : List Char) : Except CodecError Nat :=
  match Numeral.bounded? 64 16 Numeral.hexValue? field with
  | none => fail (.hexField (String.ofList field))
  | some n =>
    if Numeral.hexChars n = field then .ok n else fail (.nonCanonicalHex (String.ofList field))

def typeField (field : List Char) : Except CodecError Nat := do
  let n ← hexField field
  if n < 2 ^ 16 then return n else throw (.overflow 16)

def base64Field (field : List Char) : Except CodecError Bytes :=
  match Base64.decode (String.ofList field) with
  | .ok bytes => .ok bytes
  | .error fault => .error (.base64 fault)

def sizeField (field : List Char) : Except CodecError Nat :=
  match Numeral.bounded? 64 10 Numeral.decimalValue? field with
  | none => fail (.size (String.ofList field))
  | some n =>
    if Numeral.decimalChars n = field then .ok n
    else fail (.nonCanonicalSize (String.ofList field))

def parseCondition (uri : String) : Except CodecError ConditionParts :=
  match Text.split ':' uri.toList with
  | [scheme, type, features, hash, size] =>
    if scheme ≠ conditionScheme then fail (.scheme (String.ofList scheme)) else do
    let type ← typeField type
    let features ← hexField features
    let hash ← base64Field hash
    let size ← sizeField size
    return ⟨type, features, hash, size⟩
  | fields => fail (.fieldCount 5 "condition" fields.length)

def parseFulfillment (uri : String) : Except CodecError FulfillmentParts :=
  match Text.split ':' uri.toList with
  | [scheme, type, payload] =>
    if scheme ≠ fulfillmentScheme then fail (.scheme (String.ofList scheme)) else do
    let type ← typeField type
    let payload ← base64Field payload
    return ⟨type, payload⟩
  | fields => fail (.fieldCount 3 "fulfillment" fields.length)

end CryptoConditions.Uri
