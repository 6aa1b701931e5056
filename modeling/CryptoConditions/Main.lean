import CryptoConditions.Command.Arguments
import Std.Time.DateTime.Timestamp

/-! The program: it reads the files that a command may ask for, runs the command
on them, writes what has changed and prints what was printed. The names of the key
files are kept in a list beside their directory. -/

namespace CryptoConditions.Program

def readText (path : String) : IO (Option String) := do
  try return some (← IO.FS.readFile path) catch _ => return none

/-- Files as they are on the disk, in a directory and where texts name them. All directories on the
way are taken to be there. -/
def readFiles (paths : List Path) (names : List String) : IO Files := do
  let contents ← (paths ++ names.map Path.ofText).filterMapM fun path => do
    return (← readText path.text).map fun text => (path, text)
  let ways := names.flatMap fun name => (Path.wayOf [] name).dropLast
  return ⟨paths.map List.dropLast ++ ways, contents⟩

def listPath (directory : Path) : String :=
  (directory ++ ["keys.list"]).text

def readNames (directory : Path) : IO (List String) := do
  let text := (← readText (listPath directory)).getD ""
  return ((text.splitOn "\n").filter fun name => name ≠ "")

def now : IO Instant := do
  let time ← Std.Time.Timestamp.now
  return ⟨time.val.second.val, time.val.nano.val.toNat⟩

def run (request : Request) (directory : Path) (before : Files) (s : Session) : IO UInt32 := do
  let seed := (← IO.getRandomBytes 32).toList
  let (result, after) := (request.command seed (← now)).run.run s
  if request.usesStore then IO.FS.createDirAll after.store.directory.text
  for (path, text) in before.written after.files do
    IO.FS.writeFile path.text text
  if request.usesStore then
    let names := after.files.names after.store.directory
    IO.FS.writeFile (listPath directory) ("\n".intercalate names)
  IO.print after.printed
  match result with
  | .ok () => return 0
  | .error error => do
    IO.eprintln s!"Error: {error.message}"
    return 1

end CryptoConditions.Program

open CryptoConditions in
def main (words : List String) : IO UInt32 := do
  match Arguments.parse? words with
  | none => do
    IO.eprintln Arguments.usage
    return 2
  | some arguments => do
    let directory := Path.ofText arguments.directory
    let store := KeyStore.ofData directory
    let names ← if arguments.request.usesStore then Program.readNames directory else pure []
    let keys := names.map fun name => store.directory ++ [name]
    let files ← Program.readFiles keys arguments.request.files
    match Session.start store files with
    | .error error => do
      IO.eprintln s!"Error: {error.message}"
      return 1
    | .ok s => Program.run arguments.request directory files s
