import CryptoConditions.Transaction.Basic

/-! Transactions in the making. -/

namespace CryptoConditions

/-- A transaction that has neither a time nor an id yet. -/
structure Draft where
  operation : Operation
  asset : Json
  metadata : Option Json
  inputs : List Input
  outputs : List Output

namespace Draft

def version : String := "2.0"

/-- A draft that brings an asset into being. -/
def create (asset : Json) : Draft :=
  ⟨.create, asset, none, [], []⟩

/-- A draft that moves the asset of an id. -/
def transfer (assetId : String) : Draft :=
  ⟨.transfer, .object [("id", .string assetId)], none, [], []⟩

def withMetadata (metadata : Json) (d : Draft) : Draft :=
  ⟨d.operation, d.asset, some metadata, d.inputs, d.outputs⟩

def addInput (input : Input) (d : Draft) : Draft :=
  ⟨d.operation, d.asset, d.metadata, d.inputs ++ [input], d.outputs⟩

def addOutput (output : Output) (d : Draft) : Draft :=
  ⟨d.operation, d.asset, d.metadata, d.inputs, d.outputs ++ [output]⟩

/-- Adds an input that spends an output of an earlier transaction. -/
def spend (earlier : Transaction) (outputIndex : UInt32) (owners : List PublicKey) (d : Draft) :
    Draft :=
  d.addInput (.ofOwners owners (some ⟨earlier.id, outputIndex⟩))

/-- The unsigned transaction at a time. -/
def build (timestamp : Instant) (d : Draft) : Except TransactionError Transaction :=
  if d.inputs.isEmpty then .error .noInputs
  else
    let t : Transaction :=
      ⟨"", version, d.operation, d.asset, d.metadata, d.inputs, d.outputs, timestamp⟩
    .ok (t.withId t.calculateId)

end Draft

/-- A transaction that brings an asset into being and gives it to owners. -/
def Transaction.create (owners : List PublicKey) (amount : UInt64) (asset : Json)
    (metadata : Option Json) (timestamp : Instant) : Except TransactionError Transaction := do
  let output ← Output.ofOwners amount owners
  let draft := ((Draft.create asset).addInput (.ofOwners owners none)).addOutput output
  match metadata with
  | none => draft.build timestamp
  | some metadata => (draft.withMetadata metadata).build timestamp

end CryptoConditions
