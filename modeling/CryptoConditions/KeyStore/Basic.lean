import CryptoConditions.Json.Record
import CryptoConditions.Key.Basic
import CryptoConditions.Storage.Files

/-! A store of key pairs: one file a pair in a directory, named by a fingerprint of
the public key. -/

namespace CryptoConditions

inductive KeyStoreError where
  | io
  | serialization
  | key (error : KeyError)
  | notFound (name : String)
deriving DecidableEq

def KeyStoreError.message : KeyStoreError → String
  | io => "IO error"
  | serialization => "Serialization error"
  | key error => s!"Crypto error: {error.message}"
  | notFound name => s!"No key matches {name}"

/-- The first half of a digest of the key. -/
def PublicKey.fingerprint (key : PublicKey) : String :=
  Hex.encode ((sha256 key.bytes).bytes.take 16)

/-- A key pair with the name that its owner gave it. -/
structure StoredKey where
  pair : KeyPair
  label : Option String
deriving DecidableEq

namespace StoredKey

def publicKey (key : StoredKey) : PublicKey :=
  key.pair.publicKey

def fingerprint (key : StoredKey) : String :=
  key.publicKey.fingerprint

/-- What may be shown of a key. -/
def info (key : StoredKey) : Json :=
  .object [("key_type", .string key.pair.type.name), ("public_key", .string key.publicKey.base58),
    ("label", .ofOption .string key.label)]

def text (key : StoredKey) : Except KeyError String := do
  let privateText ← key.pair.privateText
  return (Json.object [("key_type", .string key.pair.type.name),
    ("public_key", .string key.publicKey.base58), ("private_key", .string privateText),
    ("label", .ofOption .string key.label)]).pretty

/-- Scheme, public key, private key and label as they stand in a file. -/
def fields? : Json.Decoder (KeyType × String × String × Option String)
  | 0, _ => none
  | room + 1, w => do
    match ← Json.slots? ["key_type", "public_key", "private_key", "label"] w with
    | [type, publicKey, privateKey, label] => do
      let type ← type.required (Json.Decoder.choice KeyType.ofName?) room
      let publicKey ← publicKey.required Json.Decoder.string room
      let privateKey ← privateKey.required Json.Decoder.string room
      let label ← label.optional Json.Decoder.string room
      return (type, publicKey, privateKey, label)
    | _ => none

/-- Reads the text of a file. Scheme and public key have to be those of the private key. -/
def ofText (text : String) : Except KeyStoreError StoredKey :=
  match Json.decode? fields? text with
  | none => .error .serialization
  | some (type, publicKey, privateKey, label) =>
    match KeyPair.ofPrivateText privateKey with
    | .error error => .error (.key error)
    | .ok pair =>
      if pair.type = type ∧ pair.publicKey.base58 = publicKey then .ok ⟨pair, label⟩
      else .error (.key .invalidPrivateKey)

/-- The order of a list: by label, none before all others, then by fingerprint. -/
def precedes (a b : StoredKey) : Bool :=
  match a.label, b.label with
  | none, some _ => true
  | some _, none => false
  | none, none => decide (a.fingerprint ≤ b.fingerprint)
  | some x, some y =>
    decide (x < y) || (x == y && decide (a.fingerprint ≤ b.fingerprint))

end StoredKey

structure KeyStore where
  directory : Path
  defaultType : KeyType

namespace KeyStore

/-- The store under a directory of data. -/
def ofData (directory : Path) : KeyStore :=
  ⟨directory ++ ["keys"], .ed25519⟩

def standard : KeyStore :=
  ofData [".conditions_data"]

/-- Files in which the store has its directory. -/
def prepare (store : KeyStore) (files : Files) : Except KeyStoreError Files :=
  match files.makeDirectory? store.directory with
  | none => .error .io
  | some files => .ok files

def path (store : KeyStore) (key : PublicKey) : Path :=
  store.directory ++ [key.fingerprint ++ ".json"]

/-- A name of at least one character and an extension. -/
def isKeyFile (name : String) : Bool :=
  name.endsWith ".json" && name != ".json"

def loadFile (path : Path) (files : Files) : Except KeyStoreError StoredKey :=
  match files.read? path with
  | none => .error .io
  | some text => StoredKey.ofText text

/-- Writes the file of a key, in place of an earlier one of the same public key. -/
def save (store : KeyStore) (key : StoredKey) (files : Files) : Except KeyStoreError Files :=
  match key.text with
  | .error error => .error (.key error)
  | .ok text => match files.write? (store.path key.publicKey) text with
    | none => .error .io
    | some files => .ok files

/-- All keys that can be read, in their order. -/
def list (store : KeyStore) (files : Files) : Except KeyStoreError (List StoredKey) :=
  if store.directory ∈ files.directories then
    let keys := ((files.names store.directory).filter isKeyFile).filterMap fun name =>
      (loadFile (store.directory ++ [name]) files).toOption
    .ok (keys.mergeSort StoredKey.precedes)
  else .error .io

def load (store : KeyStore) (key : PublicKey) (files : Files) : Except KeyStoreError StoredKey :=
  match files.read? (store.path key) with
  | none => .error (.notFound key.base58)
  | some text => StoredKey.ofText text

def findLabel (store : KeyStore) (label : String) (files : Files) :
    Except KeyStoreError StoredKey := do
  match (← store.list files).find? fun key => key.label == some label with
  | some key => return key
  | none => throw (.notFound label)

/-- The key of a public key's text, or else of a label. -/
def find (store : KeyStore) (name : String) (files : Files) : Except KeyStoreError StoredKey :=
  match PublicKey.ofBase58 name with
  | .error _ => store.findLabel name files
  | .ok key => match store.load key files with
    | .ok found => .ok found
    | .error _ => store.findLabel name files

/-- The public key of a stored key or, where none is found, of a text. -/
def resolve (store : KeyStore) (name : String) (files : Files) : Except KeyError PublicKey :=
  match store.find name files with
  | .ok key => .ok key.publicKey
  | .error _ => PublicKey.ofBase58 name

def delete (store : KeyStore) (key : PublicKey) (files : Files) : Except KeyStoreError Files :=
  match files.remove? (store.path key) with
  | none => .error .io
  | some files => .ok files

/-- A new key from a random seed, saved. -/
def create (store : KeyStore) (type : KeyType) (label : Option String) (seed : Bytes)
    (files : Files) : Except KeyStoreError (StoredKey × Files) :=
  match KeyPair.generate type seed with
  | .error error => .error (.key error)
  | .ok pair => do return (⟨pair, label⟩, ← store.save ⟨pair, label⟩ files)

end KeyStore

end CryptoConditions
