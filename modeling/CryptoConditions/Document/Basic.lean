import CryptoConditions.Document.Details

/-! What an output says of its condition: the URI, and a description that has to
fit it. Outputs are locked with the condition that their owners imply. -/

namespace CryptoConditions

structure ConditionDocument where
  details : Details
  uri : String
deriving DecidableEq

namespace ConditionDocument

def ofFulfillment (f : Fulfillment) : ConditionDocument :=
  ⟨f.details none, f.condition.uri⟩

/-- The condition of the URI, if the description fits it. -/
def toCondition (d : ConditionDocument) : Except ConditionError Condition := do
  let condition ← Condition.ofUri d.uri
  let described ← d.details.toFulfillment
  if described.condition = condition then return condition
  else throw (.condition (.describedCondition described.condition.uri d.uri))

def toJson (d : ConditionDocument) : Json :=
  .object [("details", d.details.toJson), ("uri", .string d.uri)]

def ofJson? : Json.Decoder ConditionDocument
  | 0, _ => none
  | room + 1, w => do
    match ← Json.slots? ["details", "uri"] w with
    | [details, uri] => do
      return ⟨← details.required Details.ofJson? room, ← uri.required Json.Decoder.string room⟩
    | _ => none

end ConditionDocument

/-- What locks an output to its owners: the key of one, or a threshold that needs the keys of
all of several. -/
def Fulfillment.ofOwners (owners : List PublicKey) : Except ConditionError Fulfillment :=
  match owners with
  | [] => .error (.condition .noOwner)
  | [owner] => Fulfillment.ofPublicKey owner
  | owners => do
    Fulfillment.ofThreshold (UInt32.ofNat owners.length) (← owners.mapM Fulfillment.ofPublicKey)

end CryptoConditions
