import CryptoConditions.Storage.Files
import Mathlib.Data.List.Nodup

/-! The files in a directory. Where their names are distinct, a file is read as it stands among the
contents, in whatever order these are. What is written elsewhere does not show in the directory, and
where a file was written once another one can be written in its place. -/

namespace CryptoConditions.Files

variable {files : Files} {directory path : Path} {name text : String}

theorem eq_append_iff : path = directory ++ [name] ↔
    path.dropLast = directory ∧ path.getLast? = some name := by
  constructor
  · rintro rfl
    exact ⟨List.dropLast_concat, List.getLast?_concat⟩
  · rintro ⟨rfl, last⟩
    exact (List.dropLast_append_getLast? name last).symm

theorem mem_names : name ∈ files.names directory ↔
    ∃ text, (directory ++ [name], text) ∈ files.contents := by
  simp only [names, List.mem_filterMap]
  constructor
  · rintro ⟨⟨path, text⟩, mem, here⟩
    split at here
    · next inside =>
      rw [← eq_append_iff.2 ⟨inside, here⟩]
      exact ⟨text, mem⟩
    · cases here
  · rintro ⟨text, mem⟩
    exact ⟨_, mem, by rw [if_pos List.dropLast_concat, List.getLast?_concat]⟩

theorem mem_without {file : Path × String} :
    file ∈ (files.without path).contents ↔ file ∈ files.contents ∧ file.1 ≠ path := by
  rw [without, List.mem_filter, decide_eq_true_iff]

theorem names_without : ((files.without path).names directory).Sublist (files.names directory) :=
  List.filter_sublist.filterMap _

theorem names_cons (directories : List Path) (rest : List (Path × String)) :
    names directory ⟨directories, (directory ++ [name], text) :: rest⟩ =
      name :: names directory ⟨directories, rest⟩ := by
  simp [names]

theorem read?_eq_some_iff (distinct : (files.names directory).Nodup) :
    files.read? (directory ++ [name]) = some text ↔
      (directory ++ [name], text) ∈ files.contents := by
  obtain ⟨directories, contents⟩ := files
  induction contents with
  | nil => simp [read?]
  | cons file rest ih =>
    obtain ⟨path, own⟩ := file
    have behind : (names directory ⟨directories, rest⟩).Nodup :=
      distinct.sublist ((List.sublist_cons_self _ _).filterMap _)
    have found := ih behind
    rw [read?] at found
    rw [read?, lookup_cons_pair, List.mem_cons]
    by_cases same : directory ++ [name] = path
    · subst same
      have absent : (directory ++ [name], text) ∉ rest := by
        intro mem
        rw [names_cons, List.nodup_cons] at distinct
        exact distinct.1 (mem_names.2 ⟨text, mem⟩)
      simp [absent, eq_comm]
    · rw [if_neg same, found]
      simp [same]

theorem write?_of_free (held : files.isDirectory path.dropLast = true)
    (free : files.isDirectory path = false) (text : String) :
    files.write? path text =
      some ⟨files.directories, (path, text) :: (files.without path).contents⟩ := by
  rw [write?, if_neg (by simp [held, free])]

section Writing

variable {place : Path} {after : Files}

theorem write?_eq_some (written : files.write? place text = some after) :
    files.isDirectory place.dropLast = true ∧ files.isDirectory place = false ∧
      after = ⟨files.directories, (place, text) :: (files.without place).contents⟩ := by
  unfold write? at written
  split at written
  · cases written
  · next allowed =>
    cases written
    rw [not_or, not_not, Bool.not_eq_true] at allowed
    exact ⟨allowed.2, allowed.1, rfl⟩

theorem directories_write? (written : files.write? place text = some after) :
    after.directories = files.directories := by
  obtain ⟨_, _, rfl⟩ := write?_eq_some written
  rfl

theorem isDirectory_congr (same : after.directories = files.directories) :
    after.isDirectory path = files.isDirectory path := by
  rw [isDirectory, isDirectory, same]

theorem locate?_congr (same : after.directories = files.directories) :
    after.locate? directory name = files.locate? directory name := by
  have each : after.isDirectory = files.isDirectory := funext fun _ => isDirectory_congr same
  rw [locate?, locate?, each]

theorem names_write? (written : files.write? place text = some after)
    (outside : place.dropLast ≠ directory) : after.names directory = files.names directory := by
  obtain ⟨_, _, rfl⟩ := write?_eq_some written
  simp only [names, without, List.filterMap_cons, if_neg outside, List.filterMap_filter]
  refine List.filterMap_congr fun file _ => ?_
  by_cases here : file.1 = place
  · rw [here, if_neg outside]
    simp
  · simp [here]

theorem writeNamed?_eq_some : files.writeNamed? directory name text = some after ↔
    ∃ place, files.locate? directory name = some place ∧ files.write? place text = some after :=
  Option.bind_eq_some_iff

theorem readNamed?_writeNamed? (written : files.writeNamed? directory name text = some after) :
    after.readNamed? directory name = some text := by
  obtain ⟨place, located, written⟩ := writeNamed?_eq_some.1 written
  have found : after.locate? directory name = some place :=
    (locate?_congr (directories_write? written)).trans located
  rw [readNamed?, found, Option.bind_eq_bind, Option.bind_some, read?_write? written, if_pos rfl]

theorem exists_writeNamed?_again (written : files.writeNamed? directory name text = some after)
    (other : String) : ∃ final, after.writeNamed? directory name other = some final := by
  obtain ⟨place, located, written⟩ := writeNamed?_eq_some.1 written
  have same := directories_write? written
  obtain ⟨held, free, _⟩ := write?_eq_some written
  rw [← isDirectory_congr same] at held free
  exact ⟨_, writeNamed?_eq_some.2 ⟨place, (locate?_congr same).trans located,
    write?_of_free held free other⟩⟩

end Writing

section Alike

/-- Two states of the files that show the same in a directory. -/
structure Alike (directory : Path) (files after : Files) : Prop where
  made : directory ∈ after.directories ↔ directory ∈ files.directories
  names : after.names directory = files.names directory
  read (name : String) : after.read? (directory ++ [name]) = files.read? (directory ++ [name])

theorem alike_of_writeNamed? {start : Path} {after : Files}
    (outside : ∀ place, files.locate? start name = some place → place.dropLast ≠ directory)
    (written : files.writeNamed? start name text = some after) : Alike directory files after := by
  obtain ⟨place, located, written⟩ := writeNamed?_eq_some.1 written
  have elsewhere := outside place located
  refine ⟨by rw [directories_write? written], names_write? written elsewhere, fun own => ?_⟩
  have other : directory ++ [own] ≠ place := by
    rintro rfl
    exact elsewhere List.dropLast_concat
  rw [read?_write? written, if_neg other]

end Alike

end CryptoConditions.Files
