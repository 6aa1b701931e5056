import CryptoConditions.Document.Basic
import CryptoConditions.Text.Hex
import CryptoConditions.Time.Timestamp

/-! Transactions: documents that move an asset between owners. Each output is
locked with a condition; each input names its owners and, once it is signed,
carries the fulfillment that opens it. Signatures and the id are taken over the
document without fulfillments. -/

namespace CryptoConditions

/-- An output of an earlier transaction. -/
structure OutputLink where
  transactionId : String
  outputIndex : UInt32
deriving DecidableEq

structure Input where
  owners : List String
  spends : Option OutputLink
  fulfillment : Option String
deriving DecidableEq

structure Output where
  amount : UInt64
  condition : ConditionDocument
  publicKeys : List String
deriving DecidableEq

inductive Operation where
  | create
  | transfer
deriving DecidableEq

structure Transaction where
  id : String
  version : String
  operation : Operation
  asset : Json
  /-- Metadata that are given as null differ from none, though both are written as null. -/
  metadata : Option Json
  inputs : List Input
  outputs : List Output
  timestamp : Instant
deriving DecidableEq

inductive TransactionError where
  | condition (error : ConditionError)
  | key (error : KeyError)
  | serialization
  | countMismatch (expected found : Nat)
  | noInputs
  | inputOutOfRange (index : Nat)
deriving DecidableEq

def TransactionError.message : TransactionError → String
  | condition error => s!"Condition error: {error.message}"
  | key error => s!"Key error: {error.message}"
  | serialization => "Serialization error"
  | countMismatch expected found =>
    s!"Count mismatch: expected {Numeral.decimal expected}, got {Numeral.decimal found}"
  | noInputs => "Transaction has no inputs"
  | inputOutOfRange index => s!"Input {Numeral.decimal index} does not exist"

namespace OutputLink

def toJson (link : OutputLink) : Json :=
  .object [("transaction_id", .string link.transactionId),
    ("output_index", .ofUInt32 link.outputIndex)]

def ofJson? : Json.Decoder OutputLink
  | 0, _ => none
  | room + 1, w => do
    match ← Json.slots? ["transaction_id", "output_index"] w with
    | [id, index] => do
      return ⟨← id.required Json.Decoder.string room, ← index.required Json.Decoder.uint32 room⟩
    | _ => none

end OutputLink

namespace Input

/-- An input that waits for its fulfillment. -/
def ofOwners (owners : List PublicKey) (spends : Option OutputLink) : Input :=
  ⟨owners.map PublicKey.base58, spends, none⟩

def keys (i : Input) : Except KeyError (List PublicKey) :=
  i.owners.mapM PublicKey.ofBase58

def toJson (i : Input) : Json :=
  .object [("owners_before", .array (i.owners.map .string)),
    ("fulfills", .ofOption OutputLink.toJson i.spends),
    ("fulfillment", .ofOption .string i.fulfillment)]

def ofJson? : Json.Decoder Input
  | 0, _ => none
  | room + 1, w => do
    match ← Json.slots? ["owners_before", "fulfills", "fulfillment"] w with
    | [owners, spends, fulfillment] => do
      return ⟨← owners.required (Json.Decoder.list Json.Decoder.string) room,
        ← spends.optional OutputLink.ofJson? room,
        ← fulfillment.optional Json.Decoder.string room⟩
    | _ => none

end Input

namespace Output

/-- An amount locked to owners. -/
def ofOwners (amount : UInt64) (owners : List PublicKey) : Except TransactionError Output :=
  match Fulfillment.ofOwners owners with
  | .error error => .error (.condition error)
  | .ok f => .ok ⟨amount, .ofFulfillment f, owners.map PublicKey.base58⟩

def toJson (o : Output) : Json :=
  .object [("amount", .ofUInt64 o.amount), ("condition", o.condition.toJson),
    ("public_keys", .array (o.publicKeys.map .string))]

def ofJson? : Json.Decoder Output
  | 0, _ => none
  | room + 1, w => do
    match ← Json.slots? ["amount", "condition", "public_keys"] w with
    | [amount, condition, publicKeys] => do
      return ⟨← amount.required Json.Decoder.uint64 room,
        ← condition.required ConditionDocument.ofJson? room,
        ← publicKeys.required (Json.Decoder.list Json.Decoder.string) room⟩
    | _ => none

end Output

namespace Operation

def name : Operation → String
  | create => "CREATE"
  | transfer => "TRANSFER"

def ofName? (name : String) : Option Operation :=
  if name = "CREATE" then some create
  else if name = "TRANSFER" then some transfer
  else none

end Operation

namespace Transaction

def toJson (t : Transaction) : Json :=
  .object [("id", .string t.id), ("version", .string t.version),
    ("operation", .string t.operation.name), ("asset", t.asset),
    ("metadata", .ofOption (fun value => value) t.metadata),
    ("inputs", .array (t.inputs.map Input.toJson)),
    ("outputs", .array (t.outputs.map Output.toJson)),
    ("timestamp", .string (Timestamp.format t.timestamp))]

def instant? : Json.Decoder Instant :=
  fun room w => (Json.Decoder.string room w).bind Timestamp.parse?

def fieldNames : List String :=
  ["id", "version", "operation", "asset", "metadata", "inputs", "outputs", "timestamp"]

def decodeJson? : Json.Decoder Transaction
  | 0, _ => none
  | room + 1, w => do
    match ← Json.slots? fieldNames w with
    | [id, version, operation, asset, metadata, inputs, outputs, timestamp] => do
      return ⟨← id.required Json.Decoder.string room, ← version.required Json.Decoder.string room,
        ← operation.required (Json.Decoder.choice Operation.ofName?) room,
        ← asset.required Json.Decoder.value room,
        ← metadata.omissible Json.Decoder.value room,
        ← inputs.required (Json.Decoder.list Input.ofJson?) room,
        ← outputs.required (Json.Decoder.list Output.ofJson?) room,
        ← timestamp.required instant? room⟩
    | _ => none

/-- The form that is kept in files. -/
def text (t : Transaction) : String :=
  t.toJson.pretty

def ofText (text : String) : Except TransactionError Transaction :=
  match Json.decode? decodeJson? text with
  | some t => .ok t
  | none => .error .serialization

def unsigned (t : Transaction) : Transaction :=
  ⟨t.id, t.version, t.operation, t.asset, t.metadata,
    t.inputs.map fun i => ⟨i.owners, i.spends, none⟩, t.outputs, t.timestamp⟩

def withId (id : String) (t : Transaction) : Transaction :=
  ⟨id, t.version, t.operation, t.asset, t.metadata, t.inputs, t.outputs, t.timestamp⟩

def signingText (t : Transaction) : String :=
  t.unsigned.toJson.compact

def signingBytes (t : Transaction) : Bytes :=
  utf8 t.signingText

/-- The id that the document should have: fulfillments and the id itself do not count. -/
def calculateId (t : Transaction) : String :=
  Hex.encode (sha256 (utf8 (t.unsigned.withId "").toJson.compact)).bytes

def hasValidId (t : Transaction) : Bool :=
  t.calculateId == t.id

/-- The sum of all outputs, if it fits 64 bits. -/
def totalOutput? (t : Transaction) : Option UInt64 :=
  let total := (t.outputs.map fun o => o.amount.toNat).sum
  if total < 2 ^ 64 then some (UInt64.ofNat total) else none

end Transaction

end CryptoConditions
