import CryptoConditions.Proofs.Hash.Sha512
import CryptoConditions.Proofs.Key.Restored
import CryptoConditions.Proofs.Key.Standard
import CryptoConditions.Proofs.Transaction.Answer
import CryptoConditions.Proofs.Transaction.Owners

/-! The key that checks a signature. An input names its owners by texts, and a fulfillment shows the
bytes of a key: neither has the exponent of an RSA key. So a signature is checked under the key that
the text of the signer's key names, and this is the signer's own key where the exponent is the one
that every modulus stands for. -/

namespace CryptoConditions.Transaction

variable {message : Bytes} {t : Transaction} {input : Input} {keys : List PublicKey}

section Verdict

variable {f lock : Fulfillment} {c : Condition}

theorem checkInputs_of_verify
    (checked : checkInput message input = ofCondition (f.verify c message)) :
    checkInputs message [input] = .ok (decide (f.condition = c) && f.validate message) := by
  by_cases passes : f.condition = c ∧ f.validate message = true
  · have verified : f.verify c message = .ok () := by
      unfold Fulfillment.verify
      rw [if_neg (fun other => other passes.1), if_pos passes.2]
    rw [verified] at checked
    simp only [checkInputs, checked, ofCondition, passes.1, passes.2, decide_true, Bool.and_self]
  · have refused : (decide (f.condition = c) && f.validate message) = false := by
      simpa using passes
    rw [refused]
    cases verified : f.verify c message with
    | ok => exact absurd (Fulfillment.verify_eq_ok verified) passes
    | error e =>
      have calm : e ≠ .sizeOverflow := fun overflow =>
        verify_ne_overflow (verified.trans (congrArg Except.error overflow))
      rw [verified, ofCondition] at checked
      rw [checkInputs, checked]
      cases e with
      | sizeOverflow => exact absurd rfl calm
      | _ => rfl

theorem isFulfilled_of_written {shown : Bytes} (one : t.inputs = [input])
    (written : f.Written shown) (small : shown.length < 2 ^ 64)
    (shallow : f.shownDepth ≤ Fulfillment.maxNesting) (known : input.keys = .ok keys)
    (locked : Fulfillment.ofOwners keys = .ok lock) :
    ∃ text t', f.uri = .ok text ∧ t.attachFirst text = .ok t' ∧ t'.isFulfilled =
      .ok (decide (f.condition = lock.condition) && f.received.validate t.signingBytes) := by
  obtain ⟨text, link, read⟩ := written.uri_received small shallow
  refine ⟨text, t.withInputs [⟨input.owners, input.spends, some text⟩], link,
    attachFirst_of_one one text, ?_⟩
  have known' : Input.keys ⟨input.owners, input.spends, some text⟩ = .ok keys := known
  have checked : checkInput t.signingBytes ⟨input.owners, input.spends, some text⟩ =
      ofCondition (f.received.verify lock.condition t.signingBytes) :=
    checkInput_of_lock known' locked rfl read
  have answered := checkInputs_of_verify checked
  rw [Fulfillment.condition_received] at answered
  rw [isFulfilled_of_one one, answered]

end Verdict

theorem keys_of_long (long : ∀ key ∈ keys, key.Long)
    (owners : input.owners = keys.map PublicKey.base58) :
    input.keys = .ok (keys.map PublicKey.toStandard) := by
  refine keys_of_base58 ?_ (owners.trans (PublicKey.map_base58_toStandard keys).symm)
  intro key mem
  obtain ⟨own, inside, rfl⟩ := List.mem_map.1 mem
  exact (long own inside).toStandard

theorem getElem?_keys {owner : String} {i : Nat} (known : input.keys = .ok keys)
    (named : input.owners[i]? = some owner) :
    ∃ key, keys[i]? = some key ∧ PublicKey.ofBase58 owner = .ok key := by
  have paired := mapM_eq_ok known
  obtain ⟨inside, same⟩ := List.getElem?_eq_some_iff.1 named
  have inside' : i < keys.length := paired.length_eq ▸ inside
  have read := paired.get inside inside'
  rw [List.get_eq_getElem, List.get_eq_getElem, same] at read
  exact ⟨keys[i], List.getElem?_eq_getElem inside', read⟩

def signatureLength : PublicKey → Nat
  | .ed25519 _ => 64
  | .rsa key => key.modulus.length

section Signer

variable {signature : Bytes}

theorem length_of_sign {pair : KeyPair} {salt : Octets 32}
    (signed : pair.sign salt message = .ok signature) :
    signature.length = signatureLength pair.publicKey := by
  cases pair with
  | ed25519 pair =>
    cases signed
    exact (pair.sign message).length_eq
  | rsa key => exact rsa_length_of_verify (key.verify_of_sign signed)

theorem ofSignature_received (message : Bytes) {key : PublicKey} (long : key.Long)
    (fits : signature.length = signatureLength key) :
    ∃ f shown lock, Fulfillment.ofSignature signature key = .ok f ∧ f.Written shown ∧
      shown.length < 2 ^ 64 ∧ f.shownDepth = 0 ∧
      Fulfillment.ofPublicKey key.toStandard = .ok lock ∧ f.condition = lock.condition ∧
      f.received.validate message = key.toStandard.verify message signature := by
  cases key with
  | ed25519 key =>
    have short : signature.length = 64 := fits
    have made : Fulfillment.ofSignature signature (.ed25519 key) =
        .ok (.ed25519 Weight.one key (some ⟨signature, short⟩)) := by
      rw [Fulfillment.ofSignature, Fulfillment.ofEd25519, Octets.ofBytes?, dif_pos short]
    have written := Fulfillment.Written.ed25519 Weight.one key ⟨signature, short⟩
    refine ⟨_, _, .ed25519 Weight.one key none, made, written, written.length_lt rfl, rfl,
      rfl, rfl, ?_⟩
    simp only [Fulfillment.received, Fulfillment.validate]
    rfl
  | rsa key =>
    have enough : Rsa.minLength ≤ key.modulus.length := long
    have short : signature.length = key.modulus.length := fits
    have made : Fulfillment.ofSignature signature (.rsa key) =
        .ok (.rsa Weight.one key enough (some ⟨signature, short⟩)) := by
      rw [Fulfillment.ofSignature, Fulfillment.ofRsa]
      dsimp only
      rw [dif_pos enough, Octets.ofBytes?, dif_pos short]
    have written := Fulfillment.Written.rsa Weight.one key enough ⟨signature, short⟩
    refine ⟨_, _, .rsa Weight.one ⟨key.modulus, Rsa.publicExponent⟩ enough none, made, written,
      written.length_lt rfl, rfl, dif_pos enough, rfl, ?_⟩
    simp only [Fulfillment.received, Fulfillment.validate]
    rfl

theorem fulfillSingle_of_sign {pair : KeyPair} {salt : Octets 32} (one : t.inputs = [input])
    (owner : input.owners = [pair.publicKey.base58])
    (signed : pair.sign salt t.signingBytes = .ok signature) :
    ∃ t', t.fulfillSingle pair salt = .ok t' ∧
      t'.isFulfilled = .ok (pair.publicKey.toStandard.verify t.signingBytes signature) := by
  obtain ⟨f, shown, lock, made, written, small, shallow, locked, same, holds⟩ :=
    ofSignature_received t.signingBytes pair.long_publicKey (length_of_sign signed)
  have known : input.keys = .ok [pair.publicKey.toStandard] :=
    keys_of_long (List.forall_mem_singleton.2 pair.long_publicKey) owner
  obtain ⟨text, t', link, attached, fulfilled⟩ := isFulfilled_of_written one written small
    (shallow ▸ Nat.zero_le _) known locked
  have sign : Fulfillment.sign pair salt t.signingBytes = .ok f := by
    rw [Fulfillment.sign, signed]
    exact made
  refine ⟨t', ?_, ?_⟩
  · simp only [fulfillSingle, isEmpty_inputs one, sign, link, attached, ofCondition, bind,
      Except.bind, Bool.false_eq_true, if_false]
  · rw [fulfilled, holds, same, decide_eq_true rfl, Bool.true_and]

end Signer

/-- The text of a signer's key names the standard key of its bytes: the signer's own key, if it is
not an RSA key with an exponent of its own, which may be read from a text but is never generated. An
input that names the signer is checked under the key that the text names, and so is what the signer
signs alone. -/
theorem checked_under_named_key (pair : KeyPair) :
    PublicKey.ofBase58 pair.publicKey.base58 = .ok pair.publicKey.toStandard ∧
    (PublicKey.ofBase58 pair.publicKey.base58 = .ok pair.publicKey ↔
      ∀ own, pair = .rsa own → own.exponent = Rsa.publicExponent) ∧
    (∀ type seed, KeyPair.generate type seed = .ok pair →
      PublicKey.ofBase58 pair.publicKey.base58 = .ok pair.publicKey) ∧
    (∀ (input : Input) (keys : List PublicKey) (i : Nat),
      input.owners[i]? = some pair.publicKey.base58 → input.keys = .ok keys →
      keys[i]? = some pair.publicKey.toStandard) ∧
    ∀ (t : Transaction) (input : Input) salt signature, t.inputs = [input] →
      input.owners = [pair.publicKey.base58] → pair.sign salt t.signingBytes = .ok signature →
      ∃ t', t.fulfillSingle pair salt = .ok t' ∧
        t'.isFulfilled = .ok (pair.publicKey.toStandard.verify t.signingBytes signature) := by
  have named := PublicKey.ofBase58_of_long pair.long_publicKey
  refine ⟨named, ?_, fun type seed made => ?_, fun input keys i owner known => ?_,
    fun t input salt signature one owner signed => fulfillSingle_of_sign one owner signed⟩
  · rw [named, Except.ok.injEq]
    exact KeyPair.toStandard_publicKey_iff
  · rw [named, KeyPair.toStandard_of_generate made]
  · obtain ⟨key, there, read⟩ := getElem?_keys known owner
    rw [named] at read
    cases read
    exact there

section Samples

open KeyPair

def fermatTransaction : Transaction :=
  ⟨"", "", .create, .null, none, [.ofOwners [(rsa fermatKey).publicKey] none], [], ⟨0, 0⟩⟩

theorem fermatKey_signs (message : Bytes) :
    ∃ signature, (rsa fermatKey).sign onesSalt message = .ok signature :=
  fermatKey.sign_of_prime mersenne_607_prime mersenne_521_prime (by decide +kernel) onesSalt message

theorem toStandard_fermatKey_ne :
    (rsa fermatKey).publicKey.toStandard ≠ (rsa fermatKey).publicKey := by
  intro same
  have exponent := toStandard_publicKey_iff.1 same fermatKey rfl
  exact absurd exponent (by decide)

theorem exists_generated : ∃ pair, KeyPair.generate .ed25519 [] = .ok pair := by
  have valid : (Ed25519.Point.decode? (Ed25519.Secret.ofSeed (sha256 [])).publicOctets).isSome =
      true := by
    rw [Ed25519.Secret.ofSeed, Sha512.bytes_sha512]
    decide +kernel
  exact ⟨_, ofSeed_seed ⟨sha256 [], ⟨_, valid⟩, rfl⟩⟩

theorem checked_under_named_key_fermat :
    (∃ text signature t', ofPrivateText text = .ok (rsa fermatKey) ∧
      (rsa fermatKey).sign onesSalt fermatTransaction.signingBytes = .ok signature ∧
      PublicKey.ofBase58 (rsa fermatKey).publicKey.base58 =
        .ok (rsa fermatKey).publicKey.toStandard ∧
      fermatTransaction.fulfillSingle (rsa fermatKey) onesSalt = .ok t' ∧
      t'.isFulfilled = .ok ((rsa fermatKey).publicKey.toStandard.verify
        fermatTransaction.signingBytes signature)) ∧
    (∃ keys, (Input.ofOwners [(rsa fermatKey).publicKey] none).keys = .ok keys ∧
      keys[0]? = some (rsa fermatKey).publicKey.toStandard) ∧
    ∃ pair, generate .ed25519 [] = .ok pair ∧
      PublicKey.ofBase58 pair.publicKey.base58 = .ok pair.publicKey := by
  obtain ⟨text, _, _, read⟩ := exists_text_fermatKey
  obtain ⟨signature, signed⟩ := fermatKey_signs fermatTransaction.signingBytes
  obtain ⟨pair, generated⟩ := exists_generated
  obtain ⟨named, _, _, there, checked⟩ := checked_under_named_key (rsa fermatKey)
  obtain ⟨_, _, own, _⟩ := checked_under_named_key pair
  obtain ⟨t', made, fulfilled⟩ := checked fermatTransaction _ onesSalt signature rfl rfl signed
  have known : (Input.ofOwners [(rsa fermatKey).publicKey] none).keys =
      .ok ([(rsa fermatKey).publicKey].map PublicKey.toStandard) :=
    keys_of_long (List.forall_mem_singleton.2 (long_publicKey _)) rfl
  exact ⟨⟨text, signature, t', read, signed, named, made, fulfilled⟩,
    ⟨_, known, there _ _ 0 rfl known⟩, pair, generated, own _ _ generated⟩

/-- A private key that is read, and whose public key is not what its text names. -/
theorem named_apart_fermat : ∃ text, ofPrivateText text = .ok (rsa fermatKey) ∧
    PublicKey.ofBase58 (rsa fermatKey).publicKey.base58 ≠ .ok (rsa fermatKey).publicKey := by
  obtain ⟨text, _, _, read⟩ := exists_text_fermatKey
  refine ⟨text, read, fun own => ?_⟩
  exact toStandard_fermatKey_ne (PublicKey.toStandard_of_base58 (long_publicKey _) own)

end Samples

end CryptoConditions.Transaction
