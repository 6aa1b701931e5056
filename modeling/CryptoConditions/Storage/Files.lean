import CryptoConditions.Bytes
import CryptoConditions.Text.Split

/-! Text files in directories. A path is the list of the names on it; a file can
be written only where its directory is. -/

namespace CryptoConditions

abbrev Path : Type := List String

namespace Path

/-- Whether a path leads only out of the directory that paths start from. -/
def isAbove (path : Path) : Bool :=
  path.all (· == "..")

/-- The directory that holds another one. There is none above the root. -/
def parent (directory : Path) : Path :=
  if directory.isAbove then directory ++ [".."]
  else if directory = [""] then directory
  else directory.dropLast

/-- The place of a name in a directory. An empty name and a single point stay, two points go
back. -/
def enter (directory : Path) (name : String) : Path :=
  if name = "" ∨ name = "." then directory
  else if name = ".." then directory.parent
  else directory ++ [name]

/-- The names of a text, between slashes. -/
def names (text : String) : List String :=
  (Text.split '/' text.toList).map String.ofList

/-- All places on the way along names. -/
def way (start : Path) : List String → List Path
  | [] => [start]
  | name :: rest => start :: way (start.enter name) rest

/-- The way of a text from a directory; a slash in front starts from the root. -/
def wayOf (directory : Path) (text : String) : List Path :=
  way (if text.startsWith "/" then [""] else directory) (names text)

def ofText (text : String) : Path :=
  (wayOf [] text).getLastD []

def text (path : Path) : String :=
  "/".intercalate path

def maxName : Nat := 255

/-- Most bytes of a text that names a place. -/
def maxText : Nat := 4095

/-- Whether a text can name a file: its last name is that of a place in a directory, no name is too
long and none has a zero. -/
def canName (text : String) : Bool :=
  let names := names text
  decide ((utf8 text).length ≤ maxText) && !text.toList.contains '\x00' &&
    names.all (fun name => decide ((utf8 name).length ≤ maxName)) &&
    decide (names.getLastD "" ∉ ["", ".", ".."])

end Path

structure Files where
  directories : List Path
  contents : List (Path × String)

namespace Files

/-- No files, and no directory but the one that all paths start from. -/
def empty : Files := ⟨[[]], []⟩

/-- The directories above the one that paths start from are taken to be there. -/
def isDirectory (path : Path) (files : Files) : Bool :=
  path.isAbove || files.directories.contains path

def read? (path : Path) (files : Files) : Option String :=
  files.contents.lookup path

/-- The files without one of them. -/
def without (path : Path) (files : Files) : Files :=
  ⟨files.directories, files.contents.filter fun file => file.1 ≠ path⟩

theorem lookup_cons_pair (path other : Path) (text : String) (contents : List (Path × String)) :
    ((path, text) :: contents).lookup other =
      if other = path then some text else contents.lookup other := by
  by_cases same : other = path
  · simp [same]
  · rw [List.lookup_cons, beq_false_of_ne same, if_neg same]

theorem read?_without (path other : Path) (files : Files) :
    (files.without path).read? other = if other = path then none else files.read? other := by
  obtain ⟨directories, contents⟩ := files
  simp only [read?, without]
  induction contents with
  | nil => simp
  | cons file rest ih =>
    obtain ⟨place, text⟩ := file
    rw [lookup_cons_pair, List.filter_cons]
    by_cases here : place = path
    · subst here
      rw [if_neg (by simp), ih]
      by_cases same : other = place <;> simp [same]
    · rw [if_pos (by simpa using here), lookup_cons_pair, ih]
      by_cases asked : other = place
      · subst asked
        simp [here]
      · simp [asked]

/-- Files with a text at a path. It fails where there is a directory, and where there is none to
hold the file. -/
def write? (path : Path) (text : String) (files : Files) : Option Files :=
  if files.isDirectory path ∨ ¬files.isDirectory path.dropLast then none
  else some ⟨files.directories, (path, text) :: (files.without path).contents⟩

theorem read?_write? {path : Path} {text : String} {files after : Files}
    (written : files.write? path text = some after) (other : Path) :
    after.read? other = if other = path then some text else files.read? other := by
  unfold write? at written
  split at written
  · cases written
  · cases written
    have rest := read?_without path other files
    rw [read?, lookup_cons_pair, ← read?, rest]
    by_cases same : other = path <;> simp [same]

def remove? (path : Path) (files : Files) : Option Files :=
  (files.read? path).map fun _ => files.without path

theorem read?_remove? {path : Path} {files after : Files}
    (removed : files.remove? path = some after) (other : Path) :
    after.read? other = if other = path then none else files.read? other := by
  obtain ⟨_, _, rfl⟩ := Option.map_eq_some_iff.1 removed
  exact read?_without path other files

/-- The place of a file that a text names from a directory. All that is on the way has to be a
directory. -/
def locate? (directory : Path) (text : String) (files : Files) : Option Path :=
  let way := Path.wayOf directory text
  if Path.canName text ∧ way.dropLast.all files.isDirectory then way.getLast? else none

def readNamed? (directory : Path) (name : String) (files : Files) : Option String := do
  files.read? (← files.locate? directory name)

/-- Files with a text where another text names the place. -/
def writeNamed? (directory : Path) (name text : String) (files : Files) : Option Files := do
  files.write? (← files.locate? directory name) text

/-- Files with a directory and those on the way to it. It fails where a file stands in the way. -/
def makeDirectory? (path : Path) (files : Files) : Option Files :=
  let steps := (List.range (path.length + 1)).map path.take
  if steps.any fun step => (files.read? step).isSome then none
  else some ⟨steps ++ files.directories, files.contents⟩

def names (directory : Path) (files : Files) : List String :=
  files.contents.filterMap fun file =>
    if file.1.dropLast = directory then file.1.getLast? else none

/-- The texts that one state of the files has and an earlier one had not. -/
def written (before after : Files) : List (Path × String) :=
  after.contents.filter fun file => before.read? file.1 ≠ some file.2

end Files

end CryptoConditions
