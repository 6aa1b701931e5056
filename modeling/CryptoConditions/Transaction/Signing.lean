import CryptoConditions.Fulfillment.Reader
import CryptoConditions.Fulfillment.Validation
import CryptoConditions.Transaction.Basic

/-! Fulfillments of transactions: making them, putting them on and taking them
off, and checking them against the owners of the inputs. Nothing else of a
transaction is changed. -/

namespace CryptoConditions.Transaction

def ofCondition {α : Type} : Except ConditionError α → Except TransactionError α
  | .ok a => .ok a
  | .error error => .error (.condition error)

def withInputs (inputs : List Input) (t : Transaction) : Transaction :=
  ⟨t.id, t.version, t.operation, t.asset, t.metadata, inputs, t.outputs, t.timestamp⟩

/-- The first input with a fulfillment. -/
def attachFirst (uri : String) (t : Transaction) : Except TransactionError Transaction :=
  match t.inputs with
  | [] => .error .noInputs
  | input :: inputs => .ok (t.withInputs (⟨input.owners, input.spends, some uri⟩ :: inputs))

/-- Signs with one key, for the first input. -/
def fulfillSingle (pair : KeyPair) (salt : Octets 32) (t : Transaction) :
    Except TransactionError Transaction := do
  if t.inputs.isEmpty then throw .noInputs
  let f ← ofCondition (Fulfillment.sign pair salt t.signingBytes)
  t.attachFirst (← ofCondition f.uri)

/-- One signature of several: an Ed25519 signature that holds. -/
def jointPart (message : Bytes) (key : PublicKey) (signature : Bytes) :
    Except ConditionError Fulfillment := do
  if key.type ≠ .ed25519 then throw (.type (.jointSignature key.type))
  let f ← Fulfillment.ofSignature signature key
  if f.validate message then return f else throw .signature

/-- Puts signatures made elsewhere together, for the first input: all of them have to hold. -/
def fulfillMultiple (keys : List PublicKey) (signatures : List Bytes) (t : Transaction) :
    Except TransactionError Transaction := do
  if keys.length ≠ signatures.length then
    throw (.countMismatch keys.length signatures.length)
  if t.inputs.isEmpty then throw .noInputs
  let message := t.signingBytes
  let subs ← ofCondition ((keys.zip signatures).mapM fun part =>
    jointPart message part.1 part.2)
  let f ← ofCondition (Fulfillment.ofThreshold (UInt32.ofNat subs.length) subs)
  t.attachFirst (← ofCondition f.uri)

def attach (fulfillments : List Fulfillment) (t : Transaction) :
    Except TransactionError Transaction := do
  if fulfillments.length ≠ t.inputs.length then
    throw (.countMismatch t.inputs.length fulfillments.length)
  let uris ← ofCondition (fulfillments.mapM Fulfillment.uri)
  return t.withInputs ((t.inputs.zip uris).map fun (input, uri) =>
    ⟨input.owners, input.spends, some uri⟩)

def parsed (input : Input) : Except ConditionError (Option Fulfillment) :=
  match input.fulfillment with
  | none => .ok none
  | some uri => some <$> Fulfillment.ofUri uri

/-- Takes the fulfillments off, if all of them can be read. -/
def detach (t : Transaction) :
    Except TransactionError (List (Option Fulfillment) × Transaction) := do
  let found ← ofCondition (t.inputs.mapM parsed)
  return (found, t.unsigned)

def inputFulfillment (index : Nat) (t : Transaction) :
    Except TransactionError (Option Fulfillment) :=
  match t.inputs[index]? with
  | none => .error (.inputOutOfRange index)
  | some input => ofCondition (parsed input)

/-- Whether the fulfillment of an input satisfies what its owners imply. -/
def checkInput (message : Bytes) (input : Input) : Except TransactionError Unit :=
  match input.fulfillment with
  | none => .error (.condition (.fulfillment .inputNotFulfilled))
  | some uri => do
    let f ← ofCondition (Fulfillment.ofUri uri)
    let keys ← match input.keys with
      | .ok keys => .ok keys
      | .error error => .error (.key error)
    let expected ← ofCondition (Fulfillment.ofOwners keys)
    ofCondition (f.verify expected.condition message)

/-- Whether all inputs pass, in their order up to the first that does not. A size that overflows
ends the check. -/
def checkInputs (message : Bytes) : List Input → Except ConditionError Bool
  | [] => .ok true
  | input :: inputs =>
    match checkInput message input with
    | .ok () => checkInputs message inputs
    | .error (.condition .sizeOverflow) => .error .sizeOverflow
    | .error _ => .ok false

/-- Whether every input carries a fulfillment that its owners agree to. -/
def isFulfilled (t : Transaction) : Except ConditionError Bool :=
  if t.inputs.isEmpty then .ok false else checkInputs t.signingBytes t.inputs

end CryptoConditions.Transaction
