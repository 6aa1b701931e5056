import CryptoConditions.Proofs.Key.Restored
import CryptoConditions.Proofs.KeyStore.Listing
import CryptoConditions.Proofs.Storage.Directory
import Mathlib.Data.Set.Function
import Mathlib.Logic.Function.Basic

/-! What a store keeps. The directory of a store holds, after any calls, one file for each pair that
was saved last under its public key and not deleted since. So a public key loads the pair and the
label of its last call, and all pairs are listed in one order, in whatever order the directory is
read. -/

namespace CryptoConditions

namespace KeyStore

inductive Call where
  | save (key : StoredKey)
  | delete (key : PublicKey)

namespace Call

def publicKey : Call → PublicKey
  | save key => key.publicKey
  | delete key => key

def answer (store : KeyStore) (files : Files) : Call → Except KeyStoreError Files
  | save key => store.save key files
  | delete key => store.delete key files

/-- What is kept after a call. A pair whose private key has no text cannot be saved. -/
def keep (kept : PublicKey → Option StoredKey) : Call → PublicKey → Option StoredKey
  | save key =>
    if key.pair.Writable then Function.update kept key.publicKey (some key) else kept
  | delete key => Function.update kept key none

end Call

/-- The files after a call, which leaves them as they were if it fails. -/
def after (store : KeyStore) (files : Files) (call : Call) : Files :=
  match call.answer store files with
  | .ok files => files
  | .error _ => files

def afterAll (store : KeyStore) (files : Files) (calls : List Call) : Files :=
  calls.foldl store.after files

/-- What was saved last under a public key, if it was not deleted since. -/
def kept (calls : List Call) : PublicKey → Option StoredKey :=
  calls.foldl Call.keep fun _ => none

/-- A store without keys: its directory is there, with no file in it, and no directory stands where
a file would be. -/
structure Bare (store : KeyStore) (files : Files) : Prop where
  made : store.directory ∈ files.directories
  free : ∀ key, store.path key ∉ files.directories
  empty : files.names store.directory = []

/-- A pair that may be kept under a public key: the key is its own and one of those that are told
apart, and the pair can be written and read back. -/
structure Entitled (keys : Set PublicKey) (publicKey : PublicKey) (key : StoredKey) : Prop where
  known : publicKey ∈ keys
  own : key.publicKey = publicKey
  obtained : key.pair.Obtained
  writable : key.pair.Writable

def Sound (keys : Set PublicKey) (kept : PublicKey → Option StoredKey) : Prop :=
  ∀ publicKey key, kept publicKey = some key → Entitled keys publicKey key

/-- The directory has the files of what is kept, and no others. -/
structure Holds (store : KeyStore) (kept : PublicKey → Option StoredKey) (files : Files) :
    Prop where
  made : store.directory ∈ files.directories
  free : ∀ key, store.path key ∉ files.directories
  distinct : (files.names store.directory).Nodup
  file_iff : ∀ name text, (store.directory ++ [name], text) ∈ files.contents ↔
    ∃ key, kept key.publicKey = some key ∧ key.publicKey.fileName = name ∧ key.text = .ok text

variable {store : KeyStore} {files : Files} {keys : Set PublicKey}
  {kept : PublicKey → Option StoredKey}

theorem Bare.holds (bare : store.Bare files) : store.Holds (fun _ => none) files where
  made := bare.made
  free := bare.free
  distinct := bare.empty ▸ List.nodup_nil
  file_iff name text := by
    refine ⟨fun mem => ?_, nofun⟩
    have named := Files.mem_names.2 ⟨text, mem⟩
    rw [bare.empty] at named
    cases named

def steps (store : KeyStore) : List Path :=
  (List.range (store.directory.length + 1)).map store.directory.take

theorem directory_mem_steps (store : KeyStore) : store.directory ∈ store.steps :=
  List.mem_map.2 ⟨_, List.mem_range.2 (Nat.lt_succ_self _), List.take_length⟩

theorem length_le_of_mem_steps {step : Path} (mem : step ∈ store.steps) :
    step.length ≤ store.directory.length := by
  obtain ⟨count, _, rfl⟩ := List.mem_map.1 mem
  exact List.length_take_le' ..

theorem bare_of_prepare (store : KeyStore) :
    ∃ files, store.prepare Files.empty = .ok files ∧ store.Bare files := by
  have vacant : store.steps.any (fun step => (Files.empty.read? step).isSome) = false :=
    List.any_eq_false.2 fun _ _ => nofun
  have made : store.prepare Files.empty = .ok ⟨store.steps ++ [[]], []⟩ := by
    rw [steps] at vacant ⊢
    rw [prepare, Files.makeDirectory?, vacant]
    rfl
  refine ⟨_, made, List.mem_append_left _ store.directory_mem_steps, fun key mem => ?_, rfl⟩
  -- A file stands deeper than all of them.
  rcases List.mem_append.1 mem with mem | mem
  · have length := length_le_of_mem_steps mem
    rw [path, List.length_append] at length
    exact Nat.not_succ_le_self _ length
  · exact absurd (List.mem_singleton.1 mem) (List.append_ne_nil_of_right_ne_nil _ (by simp))

theorem eq_of_kept {a b : StoredKey} (here : kept a.publicKey = some a)
    (there : kept b.publicKey = some b) (same : a.publicKey = b.publicKey) : a = b := by
  rw [same, there] at here
  exact (Option.some.inj here).symm

theorem Sound.keep (sound : Sound keys kept) {call : Call} (known : call.publicKey ∈ keys)
    (obtained : ∀ key, call = .save key → key.pair.Obtained) : Sound keys (call.keep kept) := by
  intro publicKey key
  cases call with
  | save own =>
    rw [Call.keep]
    split
    · next writable =>
      by_cases same : publicKey = own.publicKey
      · subst same
        rw [Function.update_self]
        rintro ⟨⟩
        exact ⟨known, rfl, obtained _ rfl, writable⟩
      · rw [Function.update_of_ne same]
        exact sound publicKey key
    · exact sound publicKey key
  | delete own =>
    rw [Call.keep]
    by_cases same : publicKey = own
    · rw [same, Function.update_self]
      nofun
    · rw [Function.update_of_ne same]
      exact sound publicKey key

theorem path_eq (store : KeyStore) (publicKey : PublicKey) :
    store.path publicKey = store.directory ++ [publicKey.fileName] := rfl

theorem save_of_text (made : store.directory ∈ files.directories)
    (free : ∀ key, store.path key ∉ files.directories) {key : StoredKey} {text : String}
    (written : key.text = .ok text) : store.save key files =
      .ok ⟨files.directories, (store.path key.publicKey, text) ::
        (files.without (store.path key.publicKey)).contents⟩ := by
  have held : files.isDirectory (store.path key.publicKey).dropLast = true := by
    rw [path, List.dropLast_concat]
    simp [Files.isDirectory, made]
  rw [save, written]
  dsimp only
  rw [Files.write?_of_free held (isDirectory_path free key.publicKey)]

theorem exists_save_iff (made : store.directory ∈ files.directories)
    (free : ∀ key, store.path key ∉ files.directories) {key : StoredKey} :
    (∃ saved, store.save key files = .ok saved) ↔ key.pair.Writable := by
  rw [← StoredKey.exists_text_iff]
  constructor
  · rintro ⟨saved, ok⟩
    unfold save at ok
    split at ok
    · cases ok
    · next text written => exact ⟨text, written⟩
  · rintro ⟨text, written⟩
    exact ⟨_, save_of_text made free written⟩

theorem Holds.perm (holds : store.Holds kept files) {others : Files}
    (directories : others.directories = files.directories)
    (contents : others.contents.Perm files.contents) : store.Holds kept others where
  made := directories ▸ holds.made
  free := directories ▸ holds.free
  distinct := (contents.filterMap _).nodup_iff.2 holds.distinct
  file_iff name text := by rw [contents.mem_iff, holds.file_iff]

def loaded (store : KeyStore) (files : Files) : List StoredKey :=
  (files.names store.directory).filterMap fun name =>
    (loadFile (store.directory ++ [name]) files).toOption

section Kept

variable (holds : store.Holds kept files) (sound : Sound keys kept)

include holds sound

theorem Holds.read_of_kept {key : StoredKey} (there : kept key.publicKey = some key) :
    ∃ text, files.read? (store.path key.publicKey) = some text ∧
      StoredKey.ofText text = .ok key := by
  have entitled := sound _ _ there
  obtain ⟨text, written⟩ := StoredKey.exists_text_iff.2 entitled.writable
  have file := (holds.file_iff _ _).2 ⟨key, there, rfl, written⟩
  exact ⟨text, (Files.read?_eq_some_iff holds.distinct).2 file,
    StoredKey.ofText_text entitled.obtained.held written⟩

theorem Holds.kept_of_read {name text : String}
    (read : files.read? (store.directory ++ [name]) = some text) :
    ∃ key, kept key.publicKey = some key ∧ key.publicKey.fileName = name ∧
      StoredKey.ofText text = .ok key := by
  have file := (Files.read?_eq_some_iff holds.distinct).1 read
  obtain ⟨key, there, named, written⟩ := (holds.file_iff _ _).1 file
  exact ⟨key, there, named, StoredKey.ofText_text (sound _ _ there).obtained.held written⟩

theorem Holds.kept_of_missing {publicKey : PublicKey}
    (missing : files.read? (store.path publicKey) = none) : kept publicKey = none := by
  cases there : kept publicKey with
  | none => rfl
  | some key =>
    obtain rfl := (sound _ _ there).own
    obtain ⟨text, read, _⟩ := holds.read_of_kept sound there
    rw [missing] at read
    cases read

theorem Holds.loadFile_eq_ok_iff {name : String} {key : StoredKey} :
    loadFile (store.directory ++ [name]) files = .ok key ↔
      kept key.publicKey = some key ∧ key.publicKey.fileName = name := by
  constructor
  · intro ok
    unfold loadFile at ok
    split at ok
    · cases ok
    · next text read =>
      obtain ⟨own, there, named, meant⟩ := holds.kept_of_read sound read
      rw [meant] at ok
      cases ok
      exact ⟨there, named⟩
  · rintro ⟨there, rfl⟩
    obtain ⟨text, read, meant⟩ := holds.read_of_kept sound there
    rw [loadFile, ← path_eq, read]
    exact meant

theorem Holds.mem_names_iff {name : String} : name ∈ files.names store.directory ↔
    ∃ key, kept key.publicKey = some key ∧ key.publicKey.fileName = name := by
  rw [Files.mem_names]
  constructor
  · rintro ⟨text, file⟩
    obtain ⟨key, there, named, _⟩ := (holds.file_iff _ _).1 file
    exact ⟨key, there, named⟩
  · rintro ⟨key, there, rfl⟩
    obtain ⟨text, read, _⟩ := holds.read_of_kept sound there
    exact ⟨text, (Files.read?_eq_some_iff holds.distinct).1 read⟩

theorem Holds.toOption_loadFile_iff {name : String} {key : StoredKey} :
    (loadFile (store.directory ++ [name]) files).toOption = some key ↔
      kept key.publicKey = some key ∧ key.publicKey.fileName = name := by
  rw [← holds.loadFile_eq_ok_iff sound]
  cases loadFile (store.directory ++ [name]) files <;> simp [Except.toOption]

theorem Holds.list_eq : store.list files =
    .ok ((store.loaded files).mergeSort StoredKey.precedes) := by
  have all : (files.names store.directory).filter isKeyFile = files.names store.directory := by
    refine List.filter_eq_self.2 fun name mem => ?_
    obtain ⟨key, _, rfl⟩ := (holds.mem_names_iff sound).1 mem
    exact isKeyFile_fileName key.publicKey
  rw [KeyStore.list, if_pos holds.made, all, loaded]

theorem Holds.mem_loaded {key : StoredKey} :
    key ∈ store.loaded files ↔ kept key.publicKey = some key := by
  rw [loaded, List.mem_filterMap]
  constructor
  · rintro ⟨name, _, found⟩
    exact ((holds.toOption_loadFile_iff sound).1 found).1
  · intro there
    exact ⟨_, (holds.mem_names_iff sound).2 ⟨key, there, rfl⟩,
      (holds.toOption_loadFile_iff sound).2 ⟨there, rfl⟩⟩

theorem Holds.nodup_loaded : (store.loaded files).Nodup := by
  refine List.Nodup.filterMap (fun a b key first second => ?_) holds.distinct
  have here := (holds.toOption_loadFile_iff sound).1 first
  have there := (holds.toOption_loadFile_iff sound).1 second
  exact here.2.symm.trans there.2

variable (apart : keys.InjOn PublicKey.fingerprint) {publicKey : PublicKey}

include apart

theorem Holds.load (known : publicKey ∈ keys) :
    store.load publicKey files = match kept publicKey with
      | some key => .ok key
      | none => .error (.notFound publicKey.base58) := by
  rw [KeyStore.load]
  cases read : files.read? (store.path publicKey) with
  | none => rw [holds.kept_of_missing sound read]
  | some text =>
    obtain ⟨key, there, named, meant⟩ := holds.kept_of_read sound read
    obtain rfl := apart (sound _ _ there).known known (PublicKey.fileName_inj named)
    rw [there]
    exact meant

theorem Holds.mem_without_iff (known : publicKey ∈ keys) (name text : String) :
    (store.directory ++ [name], text) ∈ (files.without (store.path publicKey)).contents ↔
      ∃ key, key.publicKey ≠ publicKey ∧ kept key.publicKey = some key ∧
        key.publicKey.fileName = name ∧ key.text = .ok text := by
  rw [Files.mem_without, holds.file_iff, path_eq]
  constructor
  · rintro ⟨⟨key, there, rfl, written⟩, other⟩
    exact ⟨key, fun same => other (by rw [same]), there, rfl, written⟩
  · rintro ⟨key, other, there, rfl, written⟩
    refine ⟨⟨key, there, rfl, written⟩, fun same => other ?_⟩
    have names := List.singleton_inj.1 (List.append_cancel_left same)
    exact apart (sound _ _ there).known known (PublicKey.fileName_inj names)

theorem Holds.drop (known : publicKey ∈ keys) :
    store.Holds (Function.update kept publicKey none) (files.without (store.path publicKey)) where
  made := holds.made
  free := holds.free
  distinct := holds.distinct.sublist Files.names_without
  file_iff name text := by
    rw [holds.mem_without_iff sound apart known]
    refine exists_congr fun key => ?_
    by_cases same : key.publicKey = publicKey
    · simp [same]
    · simp [same]

theorem Holds.put {key : StoredKey} (known : key.publicKey ∈ keys) {text : String}
    (written : key.text = .ok text) :
    store.Holds (Function.update kept key.publicKey (some key))
      ⟨files.directories, (store.path key.publicKey, text) ::
        (files.without (store.path key.publicKey)).contents⟩ where
  made := holds.made
  free := holds.free
  distinct := by
    rw [path_eq, Files.names_cons, List.nodup_cons]
    refine ⟨fun named => ?_, holds.distinct.sublist Files.names_without⟩
    obtain ⟨_, mem⟩ := Files.mem_names.1 named
    exact (Files.mem_without.1 mem).2 rfl
  file_iff name text' := by
    rw [List.mem_cons, holds.mem_without_iff sound apart known, path_eq]
    constructor
    · rintro (same | ⟨other, different, there, rfl, text⟩)
      · obtain ⟨place, rfl⟩ := Prod.mk.inj same
        have names := List.singleton_inj.1 (List.append_cancel_left place)
        exact ⟨key, Function.update_self .., names.symm, written⟩
      · exact ⟨other, by rw [Function.update_of_ne different, there], rfl, text⟩
    · rintro ⟨other, there, rfl, text⟩
      by_cases same : other.publicKey = key.publicKey
      · rw [same, Function.update_self] at there
        cases there
        rw [written] at text
        cases text
        exact Or.inl rfl
      · rw [Function.update_of_ne same] at there
        exact Or.inr ⟨other, same, there, rfl, text⟩

theorem Holds.after {call : Call} (known : call.publicKey ∈ keys) :
    store.Holds (call.keep kept) (store.after files call) := by
  cases call with
  | save key =>
    rw [KeyStore.after, Call.answer, Call.keep]
    by_cases writable : key.pair.Writable
    · obtain ⟨text, written⟩ := StoredKey.exists_text_iff.2 writable
      rw [if_pos writable, save_of_text holds.made holds.free written]
      exact holds.put sound apart known written
    · rw [if_neg writable]
      cases saved : store.save key files with
      | error e => exact holds
      | ok after => exact absurd ((exists_save_iff holds.made holds.free).1 ⟨after, saved⟩) writable
  | delete publicKey =>
    rw [KeyStore.after, Call.answer, Call.keep, KeyStore.delete, Files.remove?]
    cases read : files.read? (store.path publicKey) with
    | some text => exact holds.drop sound apart known
    | none =>
      have same : Function.update kept publicKey none = kept := by
        rw [← holds.kept_of_missing sound read, Function.update_eq_self]
      rw [same]
      exact holds

theorem Holds.list : ∃ list, store.list files = .ok list ∧
    (∀ key, key ∈ list ↔ kept key.publicKey = some key) ∧
      list.Pairwise fun a b => a.rank < b.rank := by
  -- Pairs of one rank have one fingerprint, and so one public key.
  have ranked : ∀ a ∈ store.loaded files, ∀ b ∈ store.loaded files, a.rank = b.rank → a = b := by
    intro a left b right same
    have here := (holds.mem_loaded sound).1 left
    have there := (holds.mem_loaded sound).1 right
    have fingerprints : a.publicKey.fingerprint = b.publicKey.fingerprint := congrArg Prod.snd same
    exact eq_of_kept here there (apart (sound _ _ here).known (sound _ _ there).known fingerprints)
  refine ⟨_, holds.list_eq sound, fun key => ?_,
    StoredKey.mergeSort_precedes (holds.nodup_loaded sound) ranked⟩
  rw [List.mem_mergeSort, holds.mem_loaded sound]

end Kept

theorem Holds.afterAll (holds : store.Holds kept files) (sound : Sound keys kept)
    (apart : keys.InjOn PublicKey.fingerprint) {calls : List Call}
    (known : ∀ call ∈ calls, call.publicKey ∈ keys)
    (obtained : ∀ key, .save key ∈ calls → key.pair.Obtained) :
    Sound keys (calls.foldl Call.keep kept) ∧
      store.Holds (calls.foldl Call.keep kept) (store.afterAll files calls) := by
  induction calls generalizing kept files with
  | nil => exact ⟨sound, holds⟩
  | cons call calls ih =>
    rw [List.forall_mem_cons] at known
    have first := sound.keep known.1 fun key same => obtained key (same ▸ List.mem_cons_self)
    exact ih (holds.after sound apart known.1) first known.2
      fun key mem => obtained key (List.mem_cons_of_mem _ mem)

/-- After any calls on a store without keys, a public key loads the pair and the label that were
saved last under it, if it was not deleted since; and exactly these pairs are listed, one for each
public key, by label and fingerprint, in whatever order the directory is read. Only a pair whose
private key has no text is not saved. -/
theorem load_and_list_afterAll (bare : store.Bare files) (apart : keys.InjOn PublicKey.fingerprint)
    {calls : List Call} (known : ∀ call ∈ calls, call.publicKey ∈ keys)
    (obtained : ∀ key, .save key ∈ calls → key.pair.Obtained) :
    (∀ publicKey ∈ keys, store.load publicKey (store.afterAll files calls) =
      match KeyStore.kept calls publicKey with
        | some key => .ok key
        | none => .error (.notFound publicKey.base58)) ∧
    (∃ list : List StoredKey,
      (∀ read : Files, read.directories = (store.afterAll files calls).directories →
        read.contents.Perm (store.afterAll files calls).contents → store.list read = .ok list) ∧
      (∀ key, key ∈ list ↔ KeyStore.kept calls key.publicKey = some key) ∧
      (list.map StoredKey.publicKey).Nodup ∧ list.Pairwise fun a b => a.rank < b.rank) ∧
    ∀ key, (∃ saved, store.save key (store.afterAll files calls) = .ok saved) ↔
      key.pair.Writable := by
  have nothing : Sound keys fun _ => none := nofun
  obtain ⟨sound, holds⟩ := bare.holds.afterAll nothing apart known obtained
  refine ⟨fun publicKey mem => holds.load sound apart mem, ?_,
    fun key => exists_save_iff holds.made holds.free⟩
  obtain ⟨list, _, members, ranked⟩ := holds.list sound apart
  refine ⟨list, fun read directories contents => ?_, members, ?_, ranked⟩
  · obtain ⟨own, listed, mem_own, own_ranked⟩ := (holds.perm directories contents).list sound apart
    have same (key : StoredKey) : key ∈ own ↔ key ∈ list := (mem_own key).trans (members key).symm
    rw [listed, StoredKey.eq_of_ranked own_ranked ranked same]
  · refine (List.nodup_map_iff_inj_on ?_).2 fun a left b right same => ?_
    · refine ranked.imp ?_
      rintro a _ less rfl
      exact lt_irrefl _ less
    · exact eq_of_kept ((members a).1 left) ((members b).1 right) same

section Samples

open KeyPair

def minerKey : StoredKey :=
  ⟨rsa fermatKey, some "miner"⟩

def spenderKey : StoredKey :=
  ⟨ed25519 onesPair, some "spender"⟩

/-- A pair that is saved, deleted, and saved again with a label that comes after another one. -/
def savedAgain : List Call :=
  [.save ⟨ed25519 onesPair, none⟩, .save minerKey, .delete spenderKey.publicKey, .save spenderKey]

theorem publicKey_savedAgain : ∀ call ∈ savedAgain,
    call.publicKey ∈ ({minerKey.publicKey, spenderKey.publicKey} : Set PublicKey) := by
  simp [savedAgain, Call.publicKey, spenderKey, StoredKey.publicKey, publicKey]

theorem fingerprint_savedAgain :
    ({minerKey.publicKey, spenderKey.publicKey} : Set PublicKey).InjOn PublicKey.fingerprint := by
  have apart : minerKey.publicKey.fingerprint ≠ spenderKey.publicKey.fingerprint := by
    decide +kernel
  exact Set.injOn_pair.2 fun same => absurd same apart

theorem obtained_savedAgain : ∀ key, .save key ∈ savedAgain → key.pair.Obtained := by
  obtain ⟨_, short, _, read⟩ := exists_text_fermatKey
  have miner : (rsa fermatKey).Obtained := .read short read
  intro key mem
  simp only [savedAgain, List.mem_cons, List.not_mem_nil, Call.save.injEq, reduceCtorEq, or_false,
    false_or] at mem
  rcases mem with rfl | rfl | rfl
  · exact obtained_onesPair
  · exact miner
  · exact obtained_onesPair

theorem kept_savedAgain (publicKey : PublicKey) :
    KeyStore.kept savedAgain publicKey =
      if publicKey = spenderKey.publicKey then some spenderKey
      else if publicKey = minerKey.publicKey then some minerKey else none := by
  have miner : minerKey.pair.Writable := by decide +kernel
  have first : (ed25519 onesPair).Writable := True.intro
  have again : spenderKey.pair.Writable := True.intro
  have own : (StoredKey.mk (ed25519 onesPair) none).publicKey = spenderKey.publicKey := rfl
  simp only [KeyStore.kept, savedAgain, List.foldl_cons, List.foldl_nil, Call.keep, if_pos miner,
    if_pos first, if_pos again, own, Function.update_apply]
  split_ifs <;> rfl

theorem kept_savedAgain_iff {key : StoredKey} :
    KeyStore.kept savedAgain key.publicKey = some key ↔ key = minerKey ∨ key = spenderKey := by
  have apart : minerKey.publicKey ≠ spenderKey.publicKey := nofun
  rw [kept_savedAgain]
  constructor
  · intro there
    split_ifs at there
    · exact Or.inr (Option.some.inj there).symm
    · exact Or.inl (Option.some.inj there).symm
  · rintro (rfl | rfl)
    · rw [if_neg apart, if_pos rfl]
    · rw [if_pos rfl]

theorem load_and_list_savedAgain : ∃ files : Files, standard.Bare files ∧
    standard.load minerKey.publicKey (standard.afterAll files savedAgain) = .ok minerKey ∧
    standard.load spenderKey.publicKey (standard.afterAll files savedAgain) = .ok spenderKey ∧
    standard.list (standard.afterAll files savedAgain) = .ok [minerKey, spenderKey] := by
  obtain ⟨files, _, bare⟩ := bare_of_prepare standard
  obtain ⟨load, ⟨list, listed, members, _, ranked⟩, _⟩ :=
    load_and_list_afterAll bare fingerprint_savedAgain publicKey_savedAgain obtained_savedAgain
  have first := load minerKey.publicKey (Or.inl rfl)
  rw [kept_savedAgain_iff.2 (Or.inl rfl)] at first
  have second := load spenderKey.publicKey (Or.inr rfl)
  rw [kept_savedAgain_iff.2 (Or.inr rfl)] at second
  have order : [minerKey, spenderKey].Pairwise fun a b => a.rank < b.rank := by
    refine List.pairwise_pair.2 (Prod.Lex.toLex_lt_toLex.2 (Or.inl ?_))
    exact WithBot.coe_lt_coe.2 (show "miner" < "spender" by decide +kernel)
  have same : list = [minerKey, spenderKey] := by
    refine StoredKey.eq_of_ranked ranked order fun key => ?_
    rw [members, kept_savedAgain_iff, List.mem_pair]
  exact ⟨files, bare, first, second, same ▸ listed _ rfl (List.Perm.refl _)⟩

end Samples

end KeyStore

end CryptoConditions
