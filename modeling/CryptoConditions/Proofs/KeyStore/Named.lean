import CryptoConditions.Proofs.Key.Standard
import CryptoConditions.Proofs.KeyStore.Kept
import CryptoConditions.Proofs.KeyStore.Lookup

/-! Names that spell public keys. Such a name is looked up as the fingerprint of its key, then as a
label, and stands for itself where neither is kept. So a pair with this text is found whatever the
labels are, and a name that is the label of another pair stands for that one. -/

namespace CryptoConditions

theorem PublicKey.fingerprint_of_base58 {key named : PublicKey} (long : key.Long)
    (read : ofBase58 key.base58 = .ok named) : key.fingerprint = named.fingerprint := by
  rw [← toStandard_of_base58 long read, fingerprint, fingerprint, bytes_toStandard]

namespace KeyStore

variable {store : KeyStore} {files : Files} {keys : Set PublicKey}
  {kept : PublicKey → Option StoredKey} {name : String} {publicKey : PublicKey} {key : StoredKey}

inductive Finds (kept : PublicKey → Option StoredKey) (name : String) (publicKey : PublicKey) :
    Except KeyStoreError StoredKey → Prop where
  | file {key : StoredKey} (there : kept key.publicKey = some key)
      (same : key.publicKey.fingerprint = publicKey.fingerprint) :
      Finds kept name publicKey (.ok key)
  | label {key : StoredKey} (there : kept key.publicKey = some key)
      (labelled : key.label = some name)
      (missing : ∀ other, kept other.publicKey = some other →
        other.publicKey.fingerprint ≠ publicKey.fingerprint) :
      Finds kept name publicKey (.ok key)
  | nothing (unlabelled : ∀ other, kept other.publicKey = some other → other.label ≠ some name)
      (missing : ∀ other, kept other.publicKey = some other →
        other.publicKey.fingerprint ≠ publicKey.fingerprint) :
      Finds kept name publicKey (.error (.notFound name))

/-- A name that spells a public key and stands for no other one: a pair of this text is kept, or
none that has the name for its label or the fingerprint of the key. -/
structure Names (kept : PublicKey → Option StoredKey) (name : String) (publicKey : PublicKey) :
    Prop where
  spelled : PublicKey.ofBase58 name = .ok publicKey
  own : (∃ key, kept key.publicKey = some key ∧ key.publicKey.base58 = name) ∨
    ∀ key, kept key.publicKey = some key →
      key.label ≠ some name ∧ key.publicKey.fingerprint ≠ publicKey.fingerprint

section Kept

variable (holds : store.Holds kept files) (sound : Sound keys kept)

include holds sound

theorem Holds.load_eq_ok_iff : store.load publicKey files = .ok key ↔
    kept key.publicKey = some key ∧ key.publicKey.fingerprint = publicKey.fingerprint := by
  constructor
  · intro ok
    unfold KeyStore.load at ok
    split at ok
    · cases ok
    · next text read =>
      obtain ⟨own, there, named, meant⟩ := holds.kept_of_read sound read
      rw [meant] at ok
      cases ok
      exact ⟨there, PublicKey.fileName_inj named⟩
  · rintro ⟨there, same⟩
    obtain ⟨text, read, meant⟩ := holds.read_of_kept sound there
    have place : store.path publicKey = store.path key.publicKey := by
      rw [path, path, same]
    rw [KeyStore.load, place, read]
    exact meant

theorem Holds.find_of_text (there : kept key.publicKey = some key)
    (spelled : PublicKey.ofBase58 key.publicKey.base58 = .ok publicKey) :
    store.find key.publicKey.base58 files = .ok key := by
  have same := PublicKey.fingerprint_of_base58 key.pair.long_publicKey spelled
  rw [find, spelled]
  dsimp only
  rw [(holds.load_eq_ok_iff sound).2 ⟨there, same⟩]

variable (apart : keys.InjOn PublicKey.fingerprint)

include apart

theorem Holds.findLabel_cases (label : String) :
    (∃ key, store.findLabel label files = .ok key ∧ kept key.publicKey = some key ∧
      key.label = some label) ∨
    store.findLabel label files = .error (.notFound label) ∧
      ∀ key, kept key.publicKey = some key → key.label ≠ some label := by
  obtain ⟨list, listed, members, _⟩ := holds.list sound apart
  rw [findLabel, bind_of_ok listed]
  cases found : list.find? fun key => key.label == some label with
  | some key =>
    have labelled := List.find?_some found
    rw [beq_iff_eq] at labelled
    exact Or.inl ⟨key, rfl, (members key).1 (List.mem_of_find?_eq_some found), labelled⟩
  | none =>
    refine Or.inr ⟨rfl, fun key there labelled => ?_⟩
    exact List.find?_eq_none.1 found key ((members key).2 there) (beq_iff_eq.2 labelled)

theorem Holds.finds (spelled : PublicKey.ofBase58 name = .ok publicKey) :
    Finds kept name publicKey (store.find name files) := by
  rw [find, spelled]
  dsimp only
  cases loaded : store.load publicKey files with
  | ok key =>
    obtain ⟨there, same⟩ := (holds.load_eq_ok_iff sound).1 loaded
    exact .file there same
  | error e =>
    have missing (other : StoredKey) (there : kept other.publicKey = some other) :
        other.publicKey.fingerprint ≠ publicKey.fingerprint := by
      intro same
      rw [(holds.load_eq_ok_iff sound).2 ⟨there, same⟩] at loaded
      cases loaded
    dsimp only
    obtain ⟨key, found, there, labelled⟩ | ⟨found, unlabelled⟩ :=
      holds.findLabel_cases sound apart name
    · rw [found]
      exact .label there labelled missing
    · rw [found]
      exact .nothing unlabelled missing

theorem Holds.text_or_label (spelled : PublicKey.ofBase58 name = .ok publicKey)
    (found : store.find name files = .ok key) :
    kept key.publicKey = some key ∧ (key.publicKey.base58 = name ∨
      (∀ other, kept other.publicKey = some other → other.publicKey.base58 ≠ name) ∧
        (key.label = some name ∨ key.publicKey.fingerprint = publicKey.fingerprint)) := by
  have finds := holds.finds sound apart spelled
  rw [found] at finds
  have absent (different : key.publicKey.base58 ≠ name) (other : StoredKey)
      (there : kept other.publicKey = some other) : other.publicKey.base58 ≠ name := by
    rintro rfl
    rw [holds.find_of_text sound there spelled] at found
    cases found
    exact different rfl
  refine ⟨by cases finds <;> assumption, or_iff_not_imp_left.2 fun different =>
    ⟨absent different, ?_⟩⟩
  cases finds with
  | file _ same => exact Or.inr same
  | label _ labelled _ => exact Or.inl labelled

theorem Holds.resolve_of_names (names : Names kept name publicKey) :
    ∃ own, store.resolve name files = .ok own ∧ own.toStandard = publicKey := by
  obtain ⟨spelled, ⟨key, there, rfl⟩ | free⟩ := names
  · exact ⟨key.publicKey, resolve_of_find (holds.find_of_text sound there spelled),
      PublicKey.toStandard_of_base58 key.pair.long_publicKey spelled⟩
  · refine ⟨publicKey, ?_,
      PublicKey.toStandard_of_standard (PublicKey.standard_of_ofBase58 spelled)⟩
    have finds := holds.finds sound apart spelled
    rw [resolve]
    generalize store.find name files = answer at finds
    cases finds with
    | file there same => exact absurd same (free _ there).2
    | label there labelled _ => exact absurd labelled (free _ there).1
    | nothing => exact spelled

theorem Holds.mapM_resolve_of_names {names : List String} {publicKeys : List PublicKey}
    (all : List.Forall₂ (Names kept) names publicKeys) :
    ∃ owners, names.mapM (fun name => store.resolve name files) = .ok owners ∧
      owners.map PublicKey.toStandard = publicKeys := by
  induction all with
  | nil => exact ⟨[], rfl, rfl⟩
  | cons first _ ih =>
    obtain ⟨own, resolved, named⟩ := holds.resolve_of_names sound apart first
    obtain ⟨owners, others, rest⟩ := ih
    refine ⟨own :: owners, ?_, by rw [List.map_cons, named, rest]⟩
    rw [List.mapM_cons, bind_of_ok resolved, bind_of_ok others]
    rfl

end Kept

end KeyStore

end CryptoConditions
