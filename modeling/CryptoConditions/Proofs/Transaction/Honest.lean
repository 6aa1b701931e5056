import CryptoConditions.Proofs.Hash.Sha512
import CryptoConditions.Proofs.Key.Signing
import CryptoConditions.Proofs.Transaction.Opening
import Mathlib.NumberTheory.LucasLehmer

/-! Owners who sign. Where all owners of the one input sign, the transaction is fulfilled: by one
key pair, by signatures made elsewhere, or by a fulfillment that is attached. Only long keys of many
owners together leave no room: their outputs are locked, but not to be opened. And no transaction
is fulfilled otherwise: all owners of every input have signed it. -/

namespace CryptoConditions.Transaction

variable {message : Bytes}

section Parts

/-- With the salt the pair makes a signature of the message that holds. -/
def Signs (message : Bytes) (pair : KeyPair) (salt : Octets 32) : Prop :=
  ∃ signature, pair.sign salt message = .ok signature ∧
    pair.publicKey.verify message signature = true

theorem sign_of_verify {pair : KeyPair} {salt : Octets 32} {signature : Bytes}
    (standard : pair.publicKey.Standard) (signed : pair.sign salt message = .ok signature)
    (holds : pair.publicKey.verify message signature = true) :
    ∃ f, Fulfillment.sign pair salt message = .ok f ∧ SignedPart message pair.publicKey f := by
  obtain ⟨f, made, part⟩ := ofSignature_of_verify standard holds
  refine ⟨f, ?_, part⟩
  rw [Fulfillment.sign, signed]
  exact made

theorem parts_of_signing {pairs : List KeyPair} {salts : List (Octets 32)}
    (standard : ∀ pair ∈ pairs, pair.publicKey.Standard)
    (signed : List.Forall₂ (Signs message) pairs salts) :
    ∃ subs, ((pairs.zip salts).mapM fun part => Fulfillment.sign part.1 part.2 message) = .ok subs ∧
      List.Forall₂ (SignedPart message) (pairs.map KeyPair.publicKey) subs := by
  obtain ⟨subs, made, parts⟩ := mapM_zip_of_each (f := fun part : KeyPair × Octets 32 =>
    Fulfillment.sign part.1 part.2 message) (fun pair mem salt ⟨_, made, verified⟩ =>
      sign_of_verify (standard pair mem) made verified) signed
  exact ⟨subs, made, List.forall₂_map_left_iff.2 parts⟩

theorem jointPart_of_verify {key : Ed25519.PublicKey} {signature : Bytes}
    (holds : Ed25519.verify key message signature = true) :
    ∃ f, jointPart message (.ed25519 key) signature = .ok f ∧
      SignedPart message (.ed25519 key) f := by
  have standard : (PublicKey.ed25519 key).Standard := True.intro
  obtain ⟨f, made, part⟩ := ofSignature_of_verify standard holds
  refine ⟨f, ?_, part⟩
  obtain ⟨shown, paid, _⟩ := part.signed.payload
  have valid := (part.signed.wellFormed.written paid).validate_of_shownHolds part.signed.shownHolds
  rw [jointPart, if_neg (fun other => other rfl)]
  change (Fulfillment.ofSignature signature (.ed25519 key) >>= _) = _
  rw [bind_of_ok made]
  rw [if_pos valid]
  rfl

theorem jointParts_of_verify {keys : List Ed25519.PublicKey} {signatures : List Bytes}
    (holds : List.Forall₂ (fun key signature => Ed25519.verify key message signature = true) keys
      signatures) :
    ∃ subs, ((keys.map .ed25519).zip signatures).mapM
        (fun part => jointPart message part.1 part.2) = .ok subs ∧
      List.Forall₂ (SignedPart message) (keys.map .ed25519) subs := by
  have paired : List.Forall₂
      (fun key signature => ∃ own, key = .ed25519 own ∧ Ed25519.verify own message signature = true)
      (keys.map PublicKey.ed25519) signatures :=
    List.forall₂_map_left_iff.2 (holds.imp fun key _ verified => ⟨key, rfl, verified⟩)
  refine mapM_zip_of_each ?_ paired
  rintro _ _ signature ⟨own, rfl, verified⟩
  exact jointPart_of_verify verified

theorem openingLength_le_of_ed25519 {keys : List Ed25519.PublicKey}
    (few : keys.length ≤ Threshold.maxParts) :
    openingLength (keys.map .ed25519) ≤ Threshold.maxPayload := by
  have sum : ((keys.map PublicKey.ed25519).map PublicKey.entryLength).sum = keys.length * 103 := by
    clear few
    induction keys with
    | nil => rfl
    | cons key keys ih =>
      have entry : PublicKey.entryLength (.ed25519 key) = 103 := rfl
      simp only [List.map_cons, List.sum_cons, List.length_cons] at ih ⊢
      omega
  unfold Threshold.maxParts at few
  rw [openingLength, sum, List.length_map, Threshold.headerLength,
    Wire.uintLength_of_lt (by omega), Threshold.maxPayload]
  omega

end Parts

section Samples

def mersenneKey : Rsa.PrivateKey where
  modulus := ⟨mersenne 607 * mersenne 521, by decide +kernel, by decide +kernel, by decide +kernel⟩
  exponent := Rsa.publicExponent
  secret := (1 + 10880 * ((mersenne 607 - 1) * (mersenne 521 - 1))) / Rsa.publicExponent
  p := mersenne 607
  q := mersenne 521
  consistent := by decide +kernel
  minLength_le := by decide +kernel

theorem mersenneKey_standard : (KeyPair.rsa mersenneKey).publicKey.Standard :=
  ⟨rfl, mersenneKey.minLength_le⟩

theorem mersenne_607_prime : (mersenne 607).Prime :=
  lucas_lehmer_sufficiency _ (by simp) (by norm_num)

theorem mersenne_521_prime : (mersenne 521).Prime :=
  lucas_lehmer_sufficiency _ (by simp) (by norm_num)

theorem mersenneKey_signs (message : Bytes) (salt : Octets 32) :
    Signs message (.rsa mersenneKey) salt := by
  obtain ⟨signature, signed⟩ := mersenneKey.sign_of_prime mersenne_607_prime mersenne_521_prime
    (by decide +kernel) salt message
  exact ⟨signature, signed, Rsa.PrivateKey.verify_of_sign signed⟩

def mersenneTransaction (count : Nat) : Transaction :=
  ⟨"", "", .create, .null, none,
    [.ofOwners (List.replicate count (.rsa mersenneKey.publicKey)) none], [], ⟨0, 0⟩⟩

def onesSalt : Octets 32 :=
  ⟨List.replicate 32 1, rfl⟩

def neutralKey : Ed25519.PublicKey :=
  ⟨⟨1 :: List.replicate 31 0, rfl⟩, by decide +kernel⟩

def neutralSignature : Bytes :=
  1 :: List.replicate 63 0

def neutralOwner : String := "4uQeVj5tqViQh7yWWGStvkEG1Zmhx6uasJtWCJziofM"

theorem base58_neutralKey : (PublicKey.ed25519 neutralKey).base58 = neutralOwner := by
  have chars : Base58.encodeChars (PublicKey.ed25519 neutralKey).bytes = neutralOwner.toList := by
    decide +kernel
  rw [PublicKey.base58, Base58.encode, chars, String.ofList_toList]

theorem owners_neutralPair : [neutralOwner, neutralOwner] =
    [neutralKey, neutralKey].map fun key => (PublicKey.ed25519 key).base58 := by
  rw [List.map_cons, List.map_singleton, base58_neutralKey]

def neutralPairTransaction : Transaction :=
  ⟨"", "", .create, .null, none, [⟨[neutralOwner, neutralOwner], none, none⟩], [], ⟨0, 0⟩⟩

theorem neutralSignature_holds :
    Ed25519.verify neutralKey neutralPairTransaction.signingBytes neutralSignature = true := by
  rw [Ed25519.verify, Ed25519.challenge, Sha512.bytes_sha512, signingBytes, signingText,
    Json.compact, utf8, String.toList_ofList]
  decide +kernel

theorem forall₂_signs_replicate (message : Bytes) (count : Nat) :
    List.Forall₂ (Signs message) (List.replicate count (.rsa mersenneKey))
      (List.replicate count onesSalt) := by
  induction count with
  | zero => exact .nil
  | succ count ih => exact .cons (mersenneKey_signs message onesSalt) ih

theorem openingLength_replicate (count : Nat) :
    openingLength (List.replicate count (KeyPair.rsa mersenneKey).publicKey) =
      Threshold.headerLength count + count * 293 := by
  have entry : (KeyPair.rsa mersenneKey).publicKey.entryLength = 293 := by decide +kernel
  rw [openingLength, List.map_replicate, List.sum_replicate, List.length_replicate, entry,
    smul_eq_mul]

end Samples

section Signing

variable {t : Transaction} {input : Input}

theorem isEmpty_inputs (one : t.inputs = [input]) : t.inputs.isEmpty = false := by
  rw [one]
  rfl

theorem fulfillSingle_of_signs {pair : KeyPair} {salt : Octets 32} (one : t.inputs = [input])
    (standard : pair.publicKey.Standard) (owner : input.owners = [pair.publicKey.base58])
    (signs : Signs t.signingBytes pair salt) :
    ∃ t', t.fulfillSingle pair salt = .ok t' ∧ t'.isFulfilled = .ok true := by
  obtain ⟨signature, signed, holds⟩ := signs
  obtain ⟨f, made, part⟩ := sign_of_verify standard signed holds
  have own : input.owners = [pair.publicKey].map PublicKey.base58 := owner
  obtain ⟨text, t', link, _, attached, fulfilled⟩ := (part.opens standard).isFulfilled one own
  refine ⟨t', ?_, fulfilled⟩
  simp only [fulfillSingle, isEmpty_inputs one, made, link, attached, ofCondition, bind,
    Except.bind, Bool.false_eq_true, if_false]

theorem fulfillMultiple_of_verify {owners keys : List Ed25519.PublicKey} {signatures : List Bytes}
    (one : t.inputs = [input]) (several : 2 ≤ owners.length) (few : owners.length ≤ 32)
    (own : input.owners = owners.map fun key => (PublicKey.ed25519 key).base58)
    (perm : keys.Perm owners)
    (holds : List.Forall₂ (fun key signature =>
      Ed25519.verify key t.signingBytes signature = true) keys signatures) :
    ∃ text, t.fulfillMultiple (keys.map .ed25519) signatures =
        .ok (t.withInputs [⟨input.owners, input.spends, some text⟩]) ∧
      (t.withInputs [⟨input.owners, input.spends, some text⟩]).isFulfilled = .ok true := by
  obtain ⟨subs, made, parts⟩ := jointParts_of_verify holds
  -- The owners are given in their own order, their signatures in another one.
  obtain ⟨ordered, matched, arranged⟩ :=
    List.perm_comp_forall₂ (perm.symm.map PublicKey.ed25519) parts
  have standard : ∀ key ∈ owners.map PublicKey.ed25519, key.Standard :=
    List.forall_mem_map.2 fun key _ => show PublicKey.Standard (.ed25519 key) from True.intro
  obtain ⟨f, joined, opens, _⟩ := opens_of_joint (by rwa [List.length_map])
    (by rwa [List.length_map]) standard matched arranged.symm
  obtain ⟨text, t', link, _, attached, fulfilled⟩ :=
    (opens (openingLength_le_of_ed25519 few)).isFulfilled one (by rw [own, List.map_map]; rfl)
  have put := attachFirst_of_one one text
  obtain rfl := Except.ok.inj (attached.symm.trans put)
  refine ⟨text, ?_, fulfilled⟩
  have total : subs.length = (owners.map PublicKey.ed25519).length := by
    rw [← parts.length_eq, List.length_map, List.length_map, perm.length_eq]
  rw [← total] at joined
  have same : ¬ (keys.map PublicKey.ed25519).length ≠ signatures.length := by
    rw [List.length_map]
    exact not_not.2 holds.length_eq
  simp only [fulfillMultiple, if_neg same, isEmpty_inputs one, made, joined, link, put, ofCondition,
    bind, Except.bind, Bool.false_eq_true, if_false]

/-- A transaction with one input is fulfilled once its only owner has signed it, or all of several
owners have, in whatever order their signatures are put together. -/
theorem isFulfilled_of_signing (one : t.inputs = [input]) :
    (∀ (pair : KeyPair) (salt : Octets 32) (signature : Bytes), pair.publicKey.Standard →
        input.owners = [pair.publicKey.base58] → pair.sign salt t.signingBytes = .ok signature →
        pair.publicKey.verify t.signingBytes signature = true →
        ∃ t', t.fulfillSingle pair salt = .ok t' ∧ t'.isFulfilled = .ok true) ∧
      ∀ (owners keys : List Ed25519.PublicKey) (signatures : List Bytes), 2 ≤ owners.length →
        owners.length ≤ 32 → input.owners = owners.map (fun key => (PublicKey.ed25519 key).base58) →
        keys.Perm owners →
        List.Forall₂ (fun key signature => signature.length = 64 ∧
          Ed25519.verify key t.signingBytes signature = true) keys signatures →
        ∃ t', t.fulfillMultiple (keys.map .ed25519) signatures = .ok t' ∧
          t'.isFulfilled = .ok true := by
  constructor
  · intro pair salt signature standard owner signed holds
    exact fulfillSingle_of_signs one standard owner ⟨signature, signed, holds⟩
  · intro owners keys signatures several few own perm signed
    obtain ⟨_, made, fulfilled⟩ := fulfillMultiple_of_verify one several few own perm
      (signed.imp fun _ _ part => part.2)
    exact ⟨_, made, fulfilled⟩

theorem isFulfilled_of_signing_samples :
    (∃ t', (mersenneTransaction 1).fulfillSingle (.rsa mersenneKey) onesSalt = .ok t' ∧
      t'.isFulfilled = .ok true) ∧
    ∃ t', neutralPairTransaction.fulfillMultiple [.ed25519 neutralKey, .ed25519 neutralKey]
        [neutralSignature, neutralSignature] = .ok t' ∧ t'.isFulfilled = .ok true := by
  obtain ⟨signature, signed, holds⟩ :=
    mersenneKey_signs (mersenneTransaction 1).signingBytes onesSalt
  exact ⟨(isFulfilled_of_signing rfl).1 (.rsa mersenneKey) onesSalt signature mersenneKey_standard
      rfl signed holds,
    (isFulfilled_of_signing rfl).2 [neutralKey, neutralKey] [neutralKey, neutralKey]
      [neutralSignature, neutralSignature] (by decide) (by decide) owners_neutralPair
      (List.Perm.refl _)
      (.cons ⟨rfl, neutralSignature_holds⟩ (.cons ⟨rfl, neutralSignature_holds⟩ .nil))⟩

/-- Keys of owners who sign lock every amount. Whoever signs alone opens the lock. The signatures
of several owners, in any order, make a fulfillment that opens it if a payload has room for all of
them; if not, the fulfillment cannot be attached. -/
theorem opening_of_signing {pairs : List KeyPair} {salts : List (Octets 32)}
    (nonempty : pairs ≠ []) (few : pairs.length ≤ Threshold.maxParts)
    (standard : ∀ pair ∈ pairs, pair.publicKey.Standard) (one : t.inputs = [input])
    (own : input.owners = pairs.map fun pair => pair.publicKey.base58)
    (signed : List.Forall₂ (Signs t.signingBytes) pairs salts) :
    ∃ subs, ((pairs.zip salts).mapM fun part =>
        Fulfillment.sign part.1 part.2 t.signingBytes) = .ok subs ∧
      (∀ amount, ∃ output, Output.ofOwners amount (pairs.map KeyPair.publicKey) = .ok output) ∧
      (pairs.length = 1 → ∃ t', t.attach subs = .ok t' ∧ t'.isFulfilled = .ok true) ∧
      (2 ≤ pairs.length → ∀ order, order.Perm subs →
        ∃ f, Fulfillment.ofThreshold (UInt32.ofNat pairs.length) order = .ok f ∧
          (openingLength (pairs.map KeyPair.publicKey) ≤ Threshold.maxPayload →
            ∃ t', t.attach [f] = .ok t' ∧ t'.isFulfilled = .ok true) ∧
          (Threshold.maxPayload < openingLength (pairs.map KeyPair.publicKey) →
            t.attach [f] = .error (.condition (.payloadTooLarge
              (openingLength (pairs.map KeyPair.publicKey)))))) := by
  obtain ⟨subs, made, parts⟩ := parts_of_signing standard signed
  have standardKeys : ∀ key ∈ pairs.map KeyPair.publicKey, key.Standard :=
    List.forall_mem_map.2 standard
  have owners : input.owners = (pairs.map KeyPair.publicKey).map PublicKey.base58 := by
    rw [own, List.map_map]
    rfl
  refine ⟨subs, made, fun amount => ?_, fun single => ?_, fun several order perm => ?_⟩
  · obtain ⟨lock, locked⟩ := ofOwners_of_standard (by rwa [Ne, List.map_eq_nil_iff])
      (by rwa [List.length_map]) standardKeys
    exact ⟨_, by rw [Output.ofOwners, locked]⟩
  · obtain ⟨pair, rfl⟩ := List.length_eq_one_iff.1 single
    cases parts with
    | cons part rest =>
      cases rest
      obtain ⟨_, t', _, attached, _, fulfilled⟩ :=
        (part.opens (standard pair List.mem_cons_self)).isFulfilled one owners
      exact ⟨t', attached, fulfilled⟩
  · obtain ⟨f, joined, opens, tooLong⟩ := opens_of_joint (by rwa [List.length_map])
      (by rwa [List.length_map]) standardKeys parts perm
    rw [List.length_map] at joined
    refine ⟨f, joined, fun fits => ?_, fun large => ?_⟩
    · obtain ⟨_, t', _, attached, _, fulfilled⟩ := (opens fits).isFulfilled one owners
      exact ⟨t', attached, fulfilled⟩
    · exact attach_of_uri_error one (tooLong large)

theorem opening_of_signing_pair : ∃ subs f t',
    ((List.replicate 2 (KeyPair.rsa mersenneKey)).zip (List.replicate 2 onesSalt)).mapM
      (fun part => Fulfillment.sign part.1 part.2 (mersenneTransaction 2).signingBytes) = .ok subs ∧
    Fulfillment.ofThreshold 2 subs = .ok f ∧ (mersenneTransaction 2).attach [f] = .ok t' ∧
    t'.isFulfilled = .ok true := by
  have standard : ∀ pair ∈ List.replicate 2 (KeyPair.rsa mersenneKey), pair.publicKey.Standard :=
    fun pair mem => List.eq_of_mem_replicate mem ▸ mersenneKey_standard
  obtain ⟨subs, made, _, _, several⟩ := opening_of_signing (t := mersenneTransaction 2)
    (by decide) (by decide) standard rfl rfl (forall₂_signs_replicate _ 2)
  obtain ⟨f, joined, opens, _⟩ := several (by decide) subs (List.Perm.refl _)
  obtain ⟨t', attached, fulfilled⟩ := opens (by
    rw [List.map_replicate, openingLength_replicate]
    decide)
  exact ⟨subs, f, t', made, joined, attached, fulfilled⟩

/-- Fourteen owners with that key can be locked out: all of them sign, and nothing is attached. -/
theorem locked_out_of_fourteen :
    (∀ pair ∈ List.replicate 14 (KeyPair.rsa mersenneKey), pair.publicKey.Standard) ∧
    (∃ output, Output.ofOwners 1 ((List.replicate 14 (KeyPair.rsa mersenneKey)).map
      KeyPair.publicKey) = .ok output) ∧
    (mersenneTransaction 14).inputs = [⟨(List.replicate 14 (KeyPair.rsa mersenneKey)).map
      fun pair => pair.publicKey.base58, none, none⟩] ∧
    List.Forall₂ (Signs (mersenneTransaction 14).signingBytes)
      (List.replicate 14 (.rsa mersenneKey)) (List.replicate 14 onesSalt) ∧
    ∃ subs f,
      ((List.replicate 14 (KeyPair.rsa mersenneKey)).zip (List.replicate 14 onesSalt)).mapM
        (fun part => Fulfillment.sign part.1 part.2 (mersenneTransaction 14).signingBytes) =
          .ok subs ∧
      Fulfillment.ofThreshold 14 subs = .ok f ∧
      ∀ t', (mersenneTransaction 14).attach [f] ≠ .ok t' := by
  have standard : ∀ pair ∈ List.replicate 14 (KeyPair.rsa mersenneKey), pair.publicKey.Standard :=
    fun pair mem => List.eq_of_mem_replicate mem ▸ mersenneKey_standard
  have standardKeys : ∀ key ∈ (List.replicate 14 (KeyPair.rsa mersenneKey)).map KeyPair.publicKey,
      key.Standard := List.forall_mem_map.2 standard
  have signed := forall₂_signs_replicate (mersenneTransaction 14).signingBytes 14
  obtain ⟨lock, locked⟩ := ofOwners_of_standard (by decide) (by decide) standardKeys
  obtain ⟨subs, made, parts⟩ := parts_of_signing standard signed
  obtain ⟨f, joined, _, tooLong⟩ :=
    opens_of_joint (by decide) (by decide) standardKeys parts (List.Perm.refl _)
  have stuck := tooLong (by
    rw [List.map_replicate, openingLength_replicate]
    decide)
  refine ⟨standard, ⟨_, by rw [Output.ofOwners, locked]⟩, rfl, signed, subs, f, made, joined, ?_⟩
  intro t' attached
  rw [attach_of_uri_error rfl stuck] at attached
  cases attached

end Signing

/-- Where a transaction is fulfilled, all owners of every input have signed it. -/
theorem owners_consent {t : Transaction} (fulfilled : t.isFulfilled = .ok true) {input : Input}
    (mem : input ∈ t.inputs) :
    ∃ uri f owners, input.fulfillment = some uri ∧ Fulfillment.ofUri uri = .ok f ∧
      input.keys = .ok owners ∧ owners ≠ [] ∧ Consent t.signingBytes owners f := by
  have passed : checkInput t.signingBytes input = .ok () := by
    unfold isFulfilled at fulfilled
    split at fulfilled
    · cases fulfilled
    · exact checkInputs_eq_ok fulfilled input mem
  obtain ⟨uri, f, owners, expected, attached, read, keys, implied, same, holds⟩ :=
    checkInput_eq_ok passed
  have decoded := Fulfillment.decoded_of_ofUri read
  have consent := consent_of_condition decoded.wellFormed decoded.standardKeys
    (forall_of_mapM (fun _ _ => standardKey_of_ofBase58) keys) implied same holds
  refine ⟨uri, f, owners, attached, read, keys, ?_, consent⟩
  rintro rfl
  cases implied

theorem owners_consent_neutralPair : ∃ (t : Transaction) (input : Input) (uri : String)
    (f : Fulfillment),
    neutralPairTransaction.fulfillMultiple [.ed25519 neutralKey, .ed25519 neutralKey]
        [neutralSignature, neutralSignature] = .ok t ∧
      t.isFulfilled = .ok true ∧ input ∈ t.inputs ∧ input.fulfillment = some uri ∧
      Fulfillment.ofUri uri = .ok f ∧
      input.keys = .ok [.ed25519 neutralKey, .ed25519 neutralKey] ∧
      Consent t.signingBytes [.ed25519 neutralKey, .ed25519 neutralKey] f := by
  obtain ⟨text, made, fulfilled⟩ := fulfillMultiple_of_verify (t := neutralPairTransaction) rfl
    (by decide) (by decide) owners_neutralPair (List.Perm.refl _)
    (.cons neutralSignature_holds (.cons neutralSignature_holds .nil))
  have standard : ∀ key ∈ [PublicKey.ed25519 neutralKey, .ed25519 neutralKey], key.Standard := by
    simp [PublicKey.Standard]
  have known : Input.keys ⟨[neutralOwner, neutralOwner], none, some text⟩ =
      .ok [.ed25519 neutralKey, .ed25519 neutralKey] := keys_of_base58 standard owners_neutralPair
  obtain ⟨uri, f, keys, attached, read, parsed, _, consent⟩ :=
    owners_consent fulfilled (List.mem_singleton.2 rfl)
  obtain rfl := Except.ok.inj (parsed.symm.trans known)
  exact ⟨_, _, uri, f, made, fulfilled, List.mem_singleton.2 rfl, attached, read, known, consent⟩

end CryptoConditions.Transaction
