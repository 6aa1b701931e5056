import CryptoConditions.Proofs.Command.Run
import CryptoConditions.Proofs.Json.Received
import CryptoConditions.Proofs.KeyStore.Lookup
import CryptoConditions.Proofs.Transaction.Atomic
import CryptoConditions.Proofs.Transaction.Created
import CryptoConditions.Proofs.Transaction.Honest

/-! A transaction that is created in a file and signed there. Between the two commands, and behind
them, the document is read from the file; it stays the document that was created for the key, and
the key is the one that the store finds both times. -/

namespace CryptoConditions

/-- A text of JSON without fractions that is not nested in more than a hundred levels. -/
def Json.Plain (text : String) : Prop :=
  ∃ value, parse? text = some value ∧ value.Numbers Number.IsInteger ∧ value.depth ≤ 100

theorem Json.Plain.fits {text : String} {value : Json} (plain : Plain text)
    (parsed : parse? text = some value) : value.Fits Number.IsInteger (maxDepth - 1) := by
  obtain ⟨same, again, integers, shallow⟩ := plain
  rw [parsed] at again
  cases again
  exact fits_of_parse? parsed integers (shallow.trans (by decide))

theorem Json.Plain.fits_of_mapM {text : Option String} {value : Option Json}
    (plain : ∀ t ∈ text, Plain t) (parsed : text.mapM parse? = some value) :
    ∀ v ∈ value, v.Fits Number.IsInteger (maxDepth - 1) := by
  cases text with
  | none =>
    cases parsed
    nofun
  | some text =>
    obtain ⟨own, meant, rfl⟩ := Option.map_eq_some_iff.1 parsed
    rintro _ ⟨⟩
    exact (plain text rfl).fits meant

theorem KeyPair.standard_publicKey {pair : KeyPair}
    (exponent : ∀ own, pair = .rsa own → own.exponent = Rsa.publicExponent) :
    pair.publicKey.Standard := by
  cases pair with
  | ed25519 => exact True.intro
  | rsa own => exact ⟨exponent own rfl, own.minLength_le⟩

namespace Transaction

variable {t : Transaction} {pair : KeyPair} {salt : Octets 32}

theorem signed_of_saved {input : Input} (storable : t.Storable) (hasId : t.hasValidId = true)
    (one : t.inputs = [input]) (owner : input.owners = [pair.publicKey.base58])
    (standard : pair.publicKey.Standard) (signs : Signs t.signingBytes pair salt) :
    ∃ read signed kept, ofText t.text = .ok read ∧ read.fulfillSingle pair salt = .ok signed ∧
      signed.isFulfilled = .ok true ∧ ofText signed.text = .ok kept ∧ kept.hasValidId = true ∧
      kept.isFulfilled = .ok true := by
  rw [← withoutNull_signingBytes] at signs
  have one' : t.withoutNull.inputs = [input] := one
  obtain ⟨signed, answered, fulfilled⟩ := fulfillSingle_of_signs one' standard owner signs
  have allowed : (Call.fulfillSingle pair salt).Allows t.withoutNull signed :=
    Call.allows_of_answer answered
  have same := allowed.document
  refine ⟨t.withoutNull, signed, signed.withoutNull, ofText_text storable, answered, fulfilled,
    ofText_text (same.storable storable.withoutNull), ?_, ?_⟩
  · rw [withoutNull_hasValidId, same.hasValidId, withoutNull_hasValidId, hasId]
  · rw [withoutNull_isFulfilled, fulfilled]

end Transaction

namespace Command

variable {s s' : Session} {name file asset : String} {metadata : Option String} {amount : UInt64}
  {now : Instant} {key : StoredKey} {salt : Octets 32}

/-- A transaction that is created for the name of a stored key, in a file outside the store, is
signed there by the same name. The document that is then in the file has its id and is fulfilled,
and a check of the file says so. -/
theorem signed_of_created (found : s.store.find name s.files = .ok key)
    (exponent : ∀ own, key.pair = .rsa own → own.exponent = Rsa.publicExponent)
    (signs : ∀ message, Transaction.Signs message key.pair salt)
    (plain : Json.Plain asset) (plainAll : ∀ text ∈ metadata, Json.Plain text)
    (outside : ∀ place, s.files.locate? [] file = some place → place.dropLast ≠ s.store.directory)
    (valid : now.Valid)
    (created : on s (create [name] amount asset metadata file now) = (.ok (), s')) :
    ∃ s'' t, on s' (sign file name salt) = (.ok (), s'') ∧
      on s'' (readTransaction file) = (.ok t, s'') ∧ t.hasValidId = true ∧
      t.isFulfilled = .ok true ∧
      on s'' (verify file) = (.ok (), (s''.print s!"🔍 Verifying transaction {t.id}...").print
        "   ✅ Transaction is fulfilled") := by
  obtain ⟨keys, value, values, t, creates, written, store⟩ := create_eq_ok created
  have owner : keys = [key.publicKey] := by
    have known := creates.known
    rw [List.mapM_cons, KeyStore.resolve_of_find found] at known
    cases known
    rfl
  subst owner
  have storable : t.Storable := Transaction.storable_of_create creates.made
    (plain.fits creates.parsed) (Json.Plain.fits_of_mapM plainAll creates.parsedAll) valid
  obtain ⟨hasId, _, _, _, equal⟩ := Transaction.create_eq_ok creates.made
  have one : t.inputs = [.ofOwners [key.publicKey] none] := by rw [equal]
  obtain ⟨read, signed, kept, meant, answered, fulfilled, again, valid, passes⟩ :=
    Transaction.signed_of_saved storable hasId one rfl (KeyPair.standard_publicKey exponent)
      (signs t.signingBytes)
  have found' : s'.store.find name s'.files = .ok key := by
    rw [store, KeyStore.find_of_alike (Files.alike_of_writeNamed? outside written), found]
  obtain ⟨files, rewritten⟩ := Files.exists_writeNamed?_again written signed.text
  obtain ⟨s'', run, _, rfl⟩ := on_sign (Files.readNamed?_writeNamed? written) meant found' answered
    fulfilled rewritten
  have last : on s'' (readTransaction file) = (.ok kept, s'') := on_readTransaction_eq_ok.2
    ⟨_, Files.readNamed?_writeNamed? rewritten, again, rfl⟩
  exact ⟨s'', kept, run, last, valid, passes, on_verify last valid passes⟩

section Samples

def mersenneStored : StoredKey :=
  ⟨.rsa Transaction.mersenneKey, some "mint"⟩

def mersenneSession (text : String) : Session :=
  ⟨.standard, ⟨[KeyStore.standard.directory],
    [(KeyStore.standard.path mersenneStored.publicKey, text)]⟩, ""⟩

theorem find_mersenneSession {text : String} (written : mersenneStored.text = .ok text) :
    (mersenneSession text).store.find mersenneStored.publicKey.base58
      (mersenneSession text).files = .ok mersenneStored := by
  have held : mersenneStored.pair.Held := by
    change byteWidth _ < _
    decide +kernel
  refine KeyStore.find_base58 Transaction.mersenneKey_standard ?_
    (StoredKey.ofText_text held written)
  rw [mersenneSession, Files.read?, Files.lookup_cons_pair, if_pos rfl]

theorem locate?_mersenneSession (text : String) :
    (mersenneSession text).files.locate? [] "out.json" = some ["out.json"] := by
  have place : (⟨[KeyStore.standard.directory], []⟩ : Files).locate? [] "out.json" =
      some ["out.json"] := by decide +kernel
  exact (Files.locate?_congr rfl).trans place

theorem exists_create_mersenneSession {text : String} (written : mersenneStored.text = .ok text) :
    ∃ s', on (mersenneSession text) (create [mersenneStored.publicKey.base58] 1 "\x7b\x7d"
      (some "null") "out.json" ⟨0, 0⟩) = (.ok (), s') := by
  obtain ⟨lock, locked, _⟩ :=
    Transaction.ofPublicKey_of_standard Transaction.mersenneKey_standard
  obtain ⟨t, made⟩ : ∃ t, Transaction.create [mersenneStored.publicKey] 1 (.object [])
      (some .null) ⟨0, 0⟩ = .ok t := Transaction.create_of_lock locked
  have known : [mersenneStored.publicKey.base58].mapM (fun name =>
      (mersenneSession text).store.resolve name (mersenneSession text).files) =
        .ok [mersenneStored.publicKey] := by
    rw [List.mapM_cons, KeyStore.resolve_of_find (find_mersenneSession written)]
    rfl
  have saved := Files.writeNamed?_eq_some.2 ⟨_, locate?_mersenneSession text,
    Files.write?_of_free rfl rfl t.text⟩
  have asset : Json.parse? "\x7b\x7d" = some (.object []) := by decide
  have metadata : (some "null").mapM Json.parse? = some (some .null) := by decide
  obtain ⟨s', run, _⟩ := on_create ⟨known, asset, metadata, made⟩ saved
  exact ⟨s', run⟩

theorem signed_of_created_mersenne : ∃ text s' s'' t, mersenneStored.text = .ok text ∧
    on (mersenneSession text) (create [mersenneStored.publicKey.base58] 1 "\x7b\x7d"
      (some "null") "out.json" ⟨0, 0⟩) = (.ok (), s') ∧
    on s' (sign "out.json" mersenneStored.publicKey.base58 Transaction.onesSalt) = (.ok (), s'') ∧
    on s'' (readTransaction "out.json") = (.ok t, s'') ∧ t.hasValidId = true ∧
    t.isFulfilled = .ok true ∧
    on s'' (verify "out.json") = (.ok (),
      (s''.print s!"🔍 Verifying transaction {t.id}...").print "   ✅ Transaction is fulfilled") := by
  have writable : mersenneStored.pair.Writable := by decide +kernel
  obtain ⟨text, written⟩ := StoredKey.exists_text_iff.2 writable
  obtain ⟨s', created⟩ := exists_create_mersenneSession written
  have outside : ∀ place, (mersenneSession text).files.locate? [] "out.json" = some place →
      place.dropLast ≠ (mersenneSession text).store.directory := by
    intro place located
    rw [locate?_mersenneSession, Option.some.injEq] at located
    rw [← located]
    exact show ["out.json"].dropLast ≠ KeyStore.standard.directory by decide
  have exponent : ∀ own, mersenneStored.pair = .rsa own → own.exponent = Rsa.publicExponent := by
    intro own same
    rw [← KeyPair.rsa.inj same]
    exact Transaction.mersenneKey_standard.1
  have plain : Json.Plain "\x7b\x7d" := ⟨.object [], by decide, trivial, by decide⟩
  have plainNull : ∀ text ∈ some "null", Json.Plain text := by
    rintro _ ⟨⟩
    exact ⟨.null, by decide, trivial, by decide⟩
  obtain ⟨s'', t, signed⟩ := signed_of_created (find_mersenneSession written) exponent
    (fun message => Transaction.mersenneKey_signs message Transaction.onesSalt) plain plainNull
    outside ⟨by decide, by decide, by decide⟩ created
  exact ⟨text, s', s'', t, written, created, signed⟩

end Samples

end Command

end CryptoConditions
