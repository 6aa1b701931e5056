import CryptoConditions.Proofs.Command.Run
import CryptoConditions.Proofs.Key.Restored
import CryptoConditions.Proofs.KeyStore.Named
import CryptoConditions.Proofs.Transaction.Honest
import CryptoConditions.Proofs.Transaction.Owners

/-! Commands for owners that are named by the texts of their keys. A command resolves the names and
goes by the keys from there on, and of a key it uses no more than the text names. -/

namespace CryptoConditions.Command

open KeyStore

/-- What a condition command does for its owners, once these are known. -/
def conditionOf (keys : List PublicKey) : Command Unit := do
  let f ← ofExcept .condition (Fulfillment.ofOwners keys)
  let document := ConditionDocument.ofFulfillment f
  let size := f.condition.size.toNat
  printLine s!"🔒 Condition for {Numeral.decimal keys.length} owner(s)"
  printLine s!"   ├─ URI: {document.uri}"
  printLine s!"   ├─ Type: {f.type.name}"
  printLine s!"   └─ Max fulfillment size: {Numeral.decimal size} bytes"
  printLine document.toJson.pretty

def createOf (keys : List PublicKey) (amount : UInt64) (asset : String) (metadata : Option String)
    (file : String) (timestamp : Instant) : Command Unit := do
  let asset ← ofOption .serialization (Json.parse? asset)
  let metadata ← ofOption .serialization (metadata.mapM Json.parse?)
  let t ← ofExcept .transaction (Transaction.create keys amount asset metadata timestamp)
  writeTransaction t file
  printLine "📝 Transaction created!"
  printLine s!"   ├─ ID: {t.id}"
  printLine s!"   ├─ Owners: {Numeral.decimal keys.length}"
  printLine s!"   ├─ Amount: {Numeral.decimal amount.toNat}"
  printLine s!"   └─ Written to {Quoted.encode file}"

section Resolved

variable {s : Session} {names : List String} {keys : List PublicKey}

theorem on_condition (known : names.mapM (fun name => s.store.resolve name s.files) = .ok keys) :
    on s (condition names) = on s (conditionOf keys) := by
  rw [condition, on_bind _ (on_mapM_resolve_eq_ok.2 ⟨known, rfl⟩)]
  rfl

theorem on_create_of_resolved
    (known : names.mapM (fun name => s.store.resolve name s.files) = .ok keys) (amount : UInt64)
    (asset : String) (metadata : Option String) (file : String) (now : Instant) :
    on s (create names amount asset metadata file now) =
      on s (createOf keys amount asset metadata file now) := by
  rw [create, on_bind _ (on_mapM_resolve_eq_ok.2 ⟨known, rfl⟩)]
  rfl

end Resolved

theorem conditionOf_toStandard (keys : List PublicKey) :
    conditionOf (keys.map PublicKey.toStandard) = conditionOf keys := by
  rw [conditionOf, conditionOf, Fulfillment.ofOwners_toStandard, List.length_map]
  cases made : Fulfillment.ofOwners keys with
  | error e => rfl
  | ok f =>
    have wellFormed := Transaction.wellFormed_ofOwners made
    have document := ConditionDocument.ofFulfillment_publicPart f
    have size := f.condition_publicPart
    have type := wellFormed.type_publicPart
    simp only [Except.map, ofExcept, pure_bind, document, size, type]

theorem createOf_toStandard (keys : List PublicKey) (amount : UInt64) (asset : String)
    (metadata : Option String) (file : String) (now : Instant) :
    createOf (keys.map PublicKey.toStandard) amount asset metadata file now =
      createOf keys amount asset metadata file now := by
  simp only [createOf, Transaction.create_toStandard, List.length_map]

/-- After any calls on a store without keys, a name that spells a public key finds no key of another
text, unless no key of this text is kept and the one that is found has the name for its label, or
shares the fingerprint. A key that is kept is found by its text, whatever the labels are. Where
the name stands for its own key, it is resolved to a key of its text, and for such names a command
prints, writes and answers what it does for the keys that they spell. -/
theorem derived_for_spelled_keys {store : KeyStore} {files : Files} {keys : Set PublicKey}
    (bare : store.Bare files) (apart : keys.InjOn PublicKey.fingerprint) {calls : List Call}
    (known : ∀ call ∈ calls, call.publicKey ∈ keys)
    (obtained : ∀ key, .save key ∈ calls → key.pair.Obtained) :
    (∀ name publicKey, PublicKey.ofBase58 name = .ok publicKey →
      (∀ key, store.find name (store.afterAll files calls) = .ok key →
        KeyStore.kept calls key.publicKey = some key ∧ (key.publicKey.base58 = name ∨
          (∀ other, KeyStore.kept calls other.publicKey = some other →
            other.publicKey.base58 ≠ name) ∧
          (key.label = some name ∨ key.publicKey.fingerprint = publicKey.fingerprint))) ∧
      ∀ key, KeyStore.kept calls key.publicKey = some key → key.publicKey.base58 = name →
        store.find name (store.afterAll files calls) = .ok key) ∧
    (∀ name publicKey, Names (KeyStore.kept calls) name publicKey →
      ∃ own, store.resolve name (store.afterAll files calls) = .ok own ∧ own.base58 = name ∧
        own.toStandard = publicKey) ∧
    ∀ names publicKeys printed, List.Forall₂ (Names (KeyStore.kept calls)) names publicKeys →
      on ⟨store, store.afterAll files calls, printed⟩ (condition names) =
        on ⟨store, store.afterAll files calls, printed⟩ (conditionOf publicKeys) ∧
      ∀ amount asset metadata file now,
        on ⟨store, store.afterAll files calls, printed⟩
          (create names amount asset metadata file now) =
        on ⟨store, store.afterAll files calls, printed⟩
          (createOf publicKeys amount asset metadata file now) := by
  have nothing : Sound keys fun _ => none := nofun
  obtain ⟨sound, holds⟩ := bare.holds.afterAll nothing apart known obtained
  refine ⟨fun name publicKey spelled => ⟨fun key found => ?_, ?_⟩,
    fun name publicKey names => ?_, fun names publicKeys printed all => ?_⟩
  · exact holds.text_or_label sound apart spelled found
  · rintro key there rfl
    exact holds.find_of_text sound there spelled
  · obtain ⟨own, resolved, rfl⟩ := holds.resolve_of_names sound apart names
    have text := PublicKey.base58_of_ofBase58 names.spelled
    rw [PublicKey.base58_toStandard] at text
    exact ⟨own, resolved, text, rfl⟩
  · obtain ⟨owners, resolved, rfl⟩ := holds.mapM_resolve_of_names sound apart all
    refine ⟨?_, fun amount asset metadata file now => ?_⟩
    · rw [conditionOf_toStandard]
      exact on_condition resolved
    · rw [createOf_toStandard]
      exact on_create_of_resolved resolved amount asset metadata file now

section Samples

open KeyPair

/-- A pair with the text of another key for its label. -/
def misnamed : StoredKey :=
  ⟨.ed25519 onesPair, some Transaction.neutralOwner⟩

theorem known_misnamed : ∀ call ∈ [Call.save misnamed],
    call.publicKey ∈ ({misnamed.publicKey} : Set PublicKey) := by
  rintro _ (_ | ⟨_, ⟨⟩⟩)
  rfl

theorem obtained_misnamed : ∀ key, .save key ∈ [Call.save misnamed] → key.pair.Obtained := by
  rintro _ (_ | ⟨_, ⟨⟩⟩)
  exact obtained_onesPair

theorem kept_misnamed_iff {key : StoredKey} :
    KeyStore.kept [.save misnamed] key.publicKey = some key ↔ key = misnamed := by
  have writable : misnamed.pair.Writable := True.intro
  rw [KeyStore.kept, List.foldl_cons, List.foldl_nil, Call.keep, if_pos writable]
  constructor
  · intro there
    by_cases same : key.publicKey = misnamed.publicKey
    · rw [same, Function.update_self] at there
      exact (Option.some.inj there).symm
    · rw [Function.update_of_ne same] at there
      cases there
  · rintro rfl
    exact Function.update_self ..

/-- A label that spells another key finds the pair it was given to, and stands for its key. -/
theorem found_by_label_of_other_key : ∃ files, standard.prepare Files.empty = .ok files ∧
    PublicKey.ofBase58 Transaction.neutralOwner = .ok (.ed25519 Transaction.neutralKey) ∧
    standard.find Transaction.neutralOwner (standard.afterAll files [.save misnamed]) =
      .ok misnamed ∧
    misnamed.publicKey.base58 ≠ Transaction.neutralOwner ∧
    standard.resolve Transaction.neutralOwner (standard.afterAll files [.save misnamed]) =
      .ok (.ed25519 onesPair.publicKey) ∧
    PublicKey.ed25519 onesPair.publicKey ≠ .ed25519 Transaction.neutralKey := by
  obtain ⟨files, prepared, bare⟩ := bare_of_prepare standard
  have nothing : Sound {misnamed.publicKey} fun _ => none := nofun
  have apart : ({misnamed.publicKey} : Set PublicKey).InjOn PublicKey.fingerprint :=
    Set.injOn_singleton _ _
  obtain ⟨sound, holds⟩ := bare.holds.afterAll nothing apart known_misnamed obtained_misnamed
  have spelled : PublicKey.ofBase58 Transaction.neutralOwner =
      .ok (.ed25519 Transaction.neutralKey) := by
    rw [← Transaction.base58_neutralKey]
    exact PublicKey.ofBase58_base58 True.intro
  have found : standard.find Transaction.neutralOwner
      (standard.afterAll files [.save misnamed]) = .ok misnamed := by
    have finds := holds.finds sound apart spelled
    generalize standard.find _ _ = answer at finds ⊢
    cases finds with
    | file there _ => rw [kept_misnamed_iff.1 there]
    | label there _ _ => rw [kept_misnamed_iff.1 there]
    | nothing unlabelled _ => exact absurd rfl (unlabelled misnamed (kept_misnamed_iff.2 rfl))
  have text : misnamed.publicKey.base58 = onesOwner := base58_onesPair
  refine ⟨files, prepared, spelled, found, ?_, resolve_of_find found, ?_⟩
  · rw [text]
    decide +kernel
  · decide +kernel

theorem derived_for_spelled_keys_misnamed : ∃ files, standard.prepare Files.empty = .ok files ∧
    standard.find onesOwner (standard.afterAll files [.save misnamed]) = .ok misnamed ∧
    standard.resolve PublicKey.zeroKeyText (standard.afterAll files [.save misnamed]) =
      .ok (.ed25519 PublicKey.zeroKey) ∧
    on ⟨standard, standard.afterAll files [.save misnamed], ""⟩
        (condition [onesOwner, PublicKey.zeroKeyText]) =
      on ⟨standard, standard.afterAll files [.save misnamed], ""⟩
        (conditionOf [.ed25519 onesPair.publicKey, .ed25519 PublicKey.zeroKey]) := by
  obtain ⟨files, prepared, bare⟩ := bare_of_prepare standard
  obtain ⟨finds, resolves, derives⟩ := derived_for_spelled_keys bare (Set.injOn_singleton _ _)
    known_misnamed obtained_misnamed
  have kept := kept_misnamed_iff.2 (Eq.refl misnamed)
  have spelled : PublicKey.ofBase58 onesOwner = .ok (.ed25519 onesPair.publicKey) := by
    rw [← base58_onesPair]
    exact PublicKey.ofBase58_base58 True.intro
  have own : Names (KeyStore.kept [.save misnamed]) onesOwner (.ed25519 onesPair.publicKey) :=
    ⟨spelled, Or.inl ⟨misnamed, kept, base58_onesPair⟩⟩
  have free : Names (KeyStore.kept [.save misnamed]) PublicKey.zeroKeyText
      (.ed25519 PublicKey.zeroKey) := by
    refine ⟨PublicKey.ofBase58_zeroKeyText, Or.inr fun key there => ?_⟩
    rw [kept_misnamed_iff.1 there]
    exact ⟨by decide +kernel, by decide +kernel⟩
  obtain ⟨key, resolved, _, same⟩ := resolves _ _ free
  have zero : key = .ed25519 PublicKey.zeroKey := by
    cases key with
    | ed25519 => exact same
    | rsa => cases same
  exact ⟨files, prepared, (finds _ _ spelled).2 _ kept base58_onesPair, zero ▸ resolved,
    (derives _ _ "" (.cons own (.cons free .nil))).1⟩

end Samples

end CryptoConditions.Command
