import CryptoConditions.Command.Basic

/-! Commands as they are given on a line of words: a directory of data, the words
that name a command, and its options. -/

namespace CryptoConditions

inductive Request where
  | keyNew (label : Option String) (type : Option KeyType)
  | keyList
  | condition (owners : List String)
  | create (owners : List String) (amount : UInt64) (asset : String) (metadata : Option String)
      (file : String)
  | sign (file key : String)
  | verify (file : String)
  | inspect (uri : String)
deriving DecidableEq

/-- The short and the long word of an option that takes a value. -/
structure OptionName where
  short : String
  long : String
deriving DecidableEq

/-- Options of a command by their long words, and its other words. -/
structure Words where
  options : List (String × String)
  others : List String
deriving DecidableEq

namespace Words

/-- An option and its value in one word. -/
def joined? (names : List OptionName) (word : String) : Option (String × String) :=
  (names.find? fun name => word.startsWith (name.long ++ "=")).map fun name =>
    (name.long, String.ofList (word.toList.drop (name.long.length + 1)))

/-- A word that is no option and no value. -/
def single? (names : List OptionName) (word : String) (rest : Words) : Option Words :=
  match joined? names word with
  | some option => some ⟨option :: rest.options, rest.others⟩
  | none => if word.startsWith "-" then none else some ⟨rest.options, word :: rest.others⟩

/-- Sorts words into options with their values and others. An unknown option is refused. -/
def read? (names : List OptionName) : List String → Option Words
  | [] => some ⟨[], []⟩
  | [word] => single? names word ⟨[], []⟩
  | word :: next :: rest =>
    match names.find? fun name => word = name.short ∨ word = name.long with
    | some name => (read? names rest).map fun words =>
        ⟨(name.long, next) :: words.options, words.others⟩
    | none => do single? names word (← read? names (next :: rest))

def all (name : String) (words : Words) : List String :=
  (words.options.filter fun option => option.1 = name).map Prod.snd

/-- The value of an option that is given at most once. -/
def atMostOne? (name : String) (words : Words) : Option (Option String) :=
  match words.all name with
  | [] => some none
  | [value] => some (some value)
  | _ => none

def one? (name : String) (words : Words) : Option String :=
  (words.atMostOne? name).join

end Words

namespace Request

def labelName : OptionName := ⟨"-l", "--label"⟩
def typeName : OptionName := ⟨"-t", "--type"⟩
def ownerName : OptionName := ⟨"-o", "--owner"⟩
def amountName : OptionName := ⟨"-a", "--amount"⟩
def assetName : OptionName := ⟨"--asset", "--asset"⟩
def metadataName : OptionName := ⟨"-m", "--metadata"⟩
def outName : OptionName := ⟨"--out", "--out"⟩
def fileName : OptionName := ⟨"-f", "--file"⟩
def keyName : OptionName := ⟨"-k", "--key"⟩

/-- The options of a command that has no other words. -/
def options? (names : List OptionName) (rest : List String) : Option Words := do
  let words ← Words.read? names rest
  if words.others.isEmpty then some words else none

def keyNew? (rest : List String) : Option Request := do
  let words ← options? [labelName, typeName] rest
  let type ← match ← words.atMostOne? typeName.long with
    | none => some none
    | some name => (KeyType.parse name).toOption.map some
  return .keyNew (← words.atMostOne? labelName.long) type

def create? (rest : List String) : Option Request := do
  let words ← options? [ownerName, amountName, assetName, metadataName, outName] rest
  let owners := words.all ownerName.long
  if owners.isEmpty then none
  let amount := (← words.atMostOne? amountName.long).getD "1"
  let amount ← Numeral.bounded? 64 10 Numeral.decimalValue? amount.toList
  let asset := (← words.atMostOne? assetName.long).getD "\x7b\x7d"
  return .create owners (UInt64.ofNat amount) asset (← words.atMostOne? metadataName.long)
    (← words.one? outName.long)

/-- The request of the words after the directory. -/
def parse? : List String → Option Request
  | "key" :: "new" :: rest => keyNew? rest
  | ["key", "list"] => some .keyList
  | "condition" :: rest => do
    let words ← Words.read? [] rest
    if words.others.isEmpty then none else some (.condition words.others)
  | "tx" :: "create" :: rest => create? rest
  | "tx" :: "sign" :: rest => do
    let words ← options? [fileName, keyName] rest
    return .sign (← words.one? fileName.long) (← words.one? keyName.long)
  | "tx" :: "verify" :: rest => do
    let words ← options? [fileName] rest
    return .verify (← words.one? fileName.long)
  | ["fulfillment", "inspect", uri] => if uri.startsWith "-" then none else some (.inspect uri)
  | _ => none

/-- The files beside the keys that a request reads or writes. -/
def files : Request → List String
  | create _ _ _ _ file => [file]
  | sign file _ => [file]
  | verify file => [file]
  | _ => []

def usesStore : Request → Bool
  | verify _ => false
  | inspect _ => false
  | _ => true

/-- What a request does at a time, with a random seed. -/
def command (seed : Bytes) (now : Instant) : Request → Command Unit
  | keyNew label type => discard (Command.keyNew label type seed)
  | keyList => Command.keyList
  | condition owners => Command.condition owners
  | create owners amount asset metadata file =>
    Command.create owners amount asset metadata file now
  | sign file key => Command.sign file key (sha256 seed)
  | verify file => Command.verify file
  | inspect uri => Command.inspect uri

end Request

structure Arguments where
  directory : String
  request : Request
deriving DecidableEq

namespace Arguments

def directoryName : OptionName := ⟨"-d", "--data-dir"⟩

def standardDirectory : String := ".conditions_data"

/-- A directory may stand before the request. -/
def parse? : List String → Option Arguments
  | [] => none
  | word :: rest =>
    match Words.joined? [directoryName] word, rest with
    | some (_, directory), _ => (Request.parse? rest).map (⟨directory, ·⟩)
    | none, directory :: others =>
      if word = directoryName.short ∨ word = directoryName.long then
        (Request.parse? others).map (⟨directory, ·⟩)
      else (Request.parse? (word :: rest)).map (⟨standardDirectory, ·⟩)
    | none, [] => (Request.parse? [word]).map (⟨standardDirectory, ·⟩)

def usage : String :=
  "Usage: conditions [-d DIRECTORY] COMMAND\n\n" ++
  "  key new [-l LABEL] [-t TYPE]\n" ++
  "  key list\n" ++
  "  condition OWNER...\n" ++
  "  tx create -o OWNER... [-a AMOUNT] [--asset JSON] [-m JSON] --out FILE\n" ++
  "  tx sign -f FILE -k KEY\n" ++
  "  tx verify -f FILE\n" ++
  "  fulfillment inspect URI"

end Arguments

end CryptoConditions
