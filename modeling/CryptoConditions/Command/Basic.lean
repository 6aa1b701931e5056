import CryptoConditions.Command.Session
import CryptoConditions.Text.Blank
import CryptoConditions.Text.Quoted
import CryptoConditions.Transaction.Draft

/-! The commands: keys are made and listed, conditions shown, transactions made,
signed and checked in files. -/

namespace CryptoConditions.Command

/-- Makes a key, of the store's own type if none is asked for. -/
def keyNew (label : Option String) (type : Option KeyType) (seed : Bytes) :
    Command StoredKey := do
  let s ← get
  let type := type.getD s.store.defaultType
  let (key, files) ← ofExcept .keyStore (s.store.create type label seed s.files)
  modify (Session.withFiles files)
  printLine s!"🔐 New {type.name} key created!"
  printLine s!"   🔑 Public Key: {key.publicKey.base58}"
  match key.label with
  | some label => printLine s!"   🏷️  Label: {label}"
  | none => pure ()
  let directory := Quoted.encode s.store.directory.text
  printLine ""
  printLine s!"   ⚠️  IMPORTANT: Your private key is stored in {directory}."
  printLine "   Back up this directory to avoid losing access to your outputs!"
  return key

def keyLine (key : StoredKey) : String :=
  let label := key.label.getD "-"
  s!"   {label} [{key.pair.type.name}] {key.publicKey.base58}"

def keyList : Command Unit := do
  let s ← get
  let keys ← ofExcept .keyStore (s.store.list s.files)
  if keys.isEmpty then printLine "📭 No keys found. Create one with: conditions key new"
  else
    printLine s!"🔑 Keys ({Numeral.decimal keys.length}):"
    keys.forM fun key => printLine (keyLine key)

def condition (owners : List String) : Command Unit := do
  let keys ← owners.mapM resolve
  let f ← ofExcept .condition (Fulfillment.ofOwners keys)
  let document := ConditionDocument.ofFulfillment f
  let size := f.condition.size.toNat
  printLine s!"🔒 Condition for {Numeral.decimal keys.length} owner(s)"
  printLine s!"   ├─ URI: {document.uri}"
  printLine s!"   ├─ Type: {f.type.name}"
  printLine s!"   └─ Max fulfillment size: {Numeral.decimal size} bytes"
  printLine document.toJson.pretty

/-- Writes a transaction that creates an amount for owners. Asset and metadata are JSON. -/
def create (owners : List String) (amount : UInt64) (asset : String) (metadata : Option String)
    (file : String) (timestamp : Instant) : Command Unit := do
  let keys ← owners.mapM resolve
  let asset ← ofOption .serialization (Json.parse? asset)
  let metadata ← ofOption .serialization (metadata.mapM Json.parse?)
  let t ← ofExcept .transaction (Transaction.create keys amount asset metadata timestamp)
  writeTransaction t file
  printLine "📝 Transaction created!"
  printLine s!"   ├─ ID: {t.id}"
  printLine s!"   ├─ Owners: {Numeral.decimal keys.length}"
  printLine s!"   ├─ Amount: {Numeral.decimal amount.toNat}"
  printLine s!"   └─ Written to {Quoted.encode file}"

/-- Signs the first input of a transaction with a stored key. -/
def sign (file name : String) (salt : Octets 32) : Command Unit := do
  let t ← readTransaction file
  let key ← findKey name
  let t ← ofExcept .transaction (t.fulfillSingle key.pair salt)
  writeTransaction t file
  printLine s!"✍️  Signed {t.id} with {key.publicKey.base58}"
  if ← isFulfilled t then printLine "   ✅ All inputs fulfilled"
  else printLine "   ⏳ Not yet fulfilled: more signers are needed"

def verify (file : String) : Command Unit := do
  let t ← readTransaction file
  printLine s!"🔍 Verifying transaction {t.id}..."
  if !t.hasValidId then printLine "   ❌ ID does not match the transaction contents"
  if ← isFulfilled t then printLine "   ✅ Transaction is fulfilled"
  else printLine "   ❌ Transaction is NOT fulfilled"

def printCondition (c : Condition) : Command Unit := do
  printLine s!"   ├─ Type: {c.type.name} ({Numeral.decimal c.type.id})"
  printLine s!"   ├─ Bitmask: {c.features.hex}"
  printLine s!"   ├─ Hash: {Hex.encode c.hash.bytes}"
  printLine s!"   ├─ Max fulfillment size: {Numeral.decimal c.size.toNat} bytes"
  printLine s!"   └─ URI: {c.uri}"

def printFulfillment (f : Fulfillment) : Command Unit := do
  let payload ← ofExcept .condition f.payload
  printLine s!"   ├─ Payload: {Numeral.decimal payload.length} bytes"
  match f with
  | .threshold _ needed subs _ _ =>
    let known := Numeral.decimal subs.length
    printLine s!"   ├─ Threshold: {Numeral.decimal needed.toNat} of {known} subs"
  | _ => pure ()
  printCondition f.condition

def inspect (text : String) : Command Unit := do
  let uri := Text.trim text
  if uri.startsWith "cc:" then
    let c ← ofExcept .condition (Condition.ofUri uri)
    printLine "🔒 Condition"
    printCondition c
  else
    let f ← ofExcept .condition (Fulfillment.ofUri uri)
    printLine "🔓 Fulfillment"
    printFulfillment f

end CryptoConditions.Command
