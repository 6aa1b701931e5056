import CryptoConditions.KeyStore.Basic
import CryptoConditions.Transaction.Signing

/-! What a command works on: a key store, the files, and the lines it has printed.
A command that fails keeps what it has printed and written before. -/

namespace CryptoConditions

inductive CommandError where
  | io
  | serialization
  | key (error : KeyError)
  | condition (error : ConditionError)
  | transaction (error : TransactionError)
  | keyStore (error : KeyStoreError)
deriving DecidableEq

def CommandError.message : CommandError → String
  | io => "IO error"
  | serialization => "Serialization error"
  | key error => error.message
  | condition error => error.message
  | transaction error => error.message
  | keyStore error => error.message

structure Session where
  store : KeyStore
  files : Files
  printed : String

namespace Session

def start (store : KeyStore) (files : Files) : Except KeyStoreError Session := do
  return ⟨store, ← store.prepare files, ""⟩

def withFiles (files : Files) (s : Session) : Session :=
  ⟨s.store, files, s.printed⟩

/-- A session in which nothing has been printed yet. -/
def quiet (s : Session) : Session :=
  ⟨s.store, s.files, ""⟩

end Session

abbrev Command (α : Type) : Type := ExceptT CommandError (StateM Session) α

namespace Command

def printLine (line : String) : Command Unit :=
  modify fun s => ⟨s.store, s.files, s.printed ++ line ++ "\n"⟩

def ofExcept {ε α : Type} (fault : ε → CommandError) : Except ε α → Command α
  | .ok a => return a
  | .error e => throw (fault e)

def ofOption {α : Type} (fault : CommandError) : Option α → Command α
  | some a => return a
  | none => throw fault

def resolve (name : String) : Command PublicKey := do
  let s ← get
  ofExcept .key (s.store.resolve name s.files)

def findKey (name : String) : Command StoredKey := do
  let s ← get
  ofExcept .keyStore (s.store.find name s.files)

def readTransaction (file : String) : Command Transaction := do
  let text ← ofOption .io ((← get).files.readNamed? [] file)
  ofExcept .transaction (Transaction.ofText text)

def writeTransaction (t : Transaction) (file : String) : Command Unit := do
  let files ← ofOption .io ((← get).files.writeNamed? [] file t.text)
  modify (Session.withFiles files)

def isFulfilled (t : Transaction) : Command Bool :=
  ofExcept .condition t.isFulfilled

end Command

end CryptoConditions
