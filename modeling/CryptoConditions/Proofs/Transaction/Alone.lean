import CryptoConditions.Proofs.Hash.Sha512
import CryptoConditions.Proofs.Key.Restored
import CryptoConditions.Proofs.Transaction.Answer
import CryptoConditions.Proofs.Transaction.Honest

/-! A sole owner. Signatures that are put together are always a threshold, and one key locks with a
condition of its own type, so what is put together for a sole owner is put on without a fault and
opens nothing. Only the owner's own signature does. -/

namespace CryptoConditions

theorem Ed25519.KeyPair.verify_sign {pair : KeyPair} {message : Bytes}
    {nonce bound response : Nat}
    (drawn : littleEndian (sha512 ((Secret.ofSeed pair.seed).nonceKey ++ message)).bytes % order =
      nonce)
    (challenged : challenge (Point.base.mul nonce).encode.bytes pair.publicKey.octets.bytes
      message = bound)
    (answered : littleEndian
      (octets ((nonce + bound * (Secret.ofSeed pair.seed).scalar) % order)).bytes = response) :
    verify pair.publicKey message (pair.sign message).bytes =
      (decide (response < order) && (Point.decode? pair.publicKey.octets).any fun point =>
        ((Point.base.mul response).add (point.neg.mul bound)).encode.bytes ==
          (Point.base.mul nonce).encode.bytes) := by
  have made : (pair.sign message).bytes = (Point.base.mul nonce).encode.bytes ++
      (octets ((nonce + bound * (Secret.ofSeed pair.seed).scalar) % order)).bytes := by
    rw [sign]
    dsimp only
    rw [drawn, challenged]
  have commitment := (Point.base.mul nonce).encode.length_eq
  rw [verify, (pair.sign message).length_eq, made, List.take_left' commitment,
    List.drop_left' commitment, challenged, answered, beq_self_eq_true, Bool.true_and]
  refine congrArg (and _) ?_
  cases Point.decode? pair.publicKey.octets with
  | none => rfl
  | some point => rw [Option.any_some]

namespace Transaction

variable {t t' : Transaction} {input : Input} {message : Bytes}

section Joint

variable {keys : List PublicKey} {signatures : List Bytes} {f : Fulfillment}

theorem signedPart_of_jointPart {key : PublicKey} {signature : Bytes}
    (made : jointPart message key signature = .ok f) : SignedPart message key f := by
  cases key with
  | rsa key => cases made
  | ed25519 key =>
    rw [jointPart, if_neg (fun other => other rfl)] at made
    obtain ⟨own, signed, made⟩ := bind_eq_ok.1 made
    split at made
    · next holds =>
      cases made
      have signed' : Fulfillment.ofEd25519 key (some signature) = .ok f := signed
      obtain ⟨s, rfl, bytes⟩ := Fulfillment.ofEd25519_eq_ok signed'
      cases s with
      | none => cases bytes
      | some s =>
        rw [Fulfillment.validate] at holds
        exact ⟨.ed25519 _ holds, rfl⟩
    · cases made

theorem fulfillMultiple_eq_ok (made : t.fulfillMultiple keys signatures = .ok t') :
    ∃ subs f text, (∀ sub ∈ subs, ∃ key, SignedPart t.signingBytes key sub) ∧
      Fulfillment.ofThreshold (UInt32.ofNat subs.length) subs = .ok f ∧ f.uri = .ok text ∧
      t.attachFirst text = .ok t' := by
  simp only [fulfillMultiple] at made
  split at made
  · cases made
  · split at made
    · cases made
    · obtain ⟨subs, parts, made⟩ := bind_eq_ok.1 made
      obtain ⟨f, joined, made⟩ := bind_eq_ok.1 made
      obtain ⟨text, link, attached⟩ := bind_eq_ok.1 made
      refine ⟨subs, f, text, ?_, ofCondition_eq_ok joined, ofCondition_eq_ok link, attached⟩
      exact forall_of_mapM (fun part _ signed => ⟨part.1, signedPart_of_jointPart signed⟩)
        (ofCondition_eq_ok parts)

theorem read_of_joint {subs : List Fulfillment} {text : String}
    (parts : ∀ sub ∈ subs, ∃ key, SignedPart message key sub)
    (joined : Fulfillment.ofThreshold (UInt32.ofNat subs.length) subs = .ok f)
    (link : f.uri = .ok text) :
    ∃ g, Fulfillment.ofUri text = .ok g ∧ g.condition.type = .threshold := by
  obtain ⟨order, selection, c, rfl, perm, assembled⟩ := Fulfillment.ofThreshold_eq_ok joined
  have signed (sub : Fulfillment) (mem : sub ∈ order) : ∃ key, SignedPart message key sub :=
    parts sub (perm.mem_iff.1 mem)
  obtain ⟨payload, paid, _⟩ := bind_eq_ok.1 link
  cases selection with
  | unsatisfied => simp [Fulfillment.payload] at paid
  | tooLarge => simp [Fulfillment.payload] at paid
  | revealed flags =>
    obtain ⟨⟨shown, written, small⟩, shallow⟩ :=
      written_of_shown (w := Weight.one) signed assembled
    obtain ⟨other, same, read⟩ := written.uri_received small shallow
    rw [link] at same
    cases same
    refine ⟨_, read, ?_⟩
    rw [Fulfillment.condition_received]
    exact (Threshold.condition_eq_ok assembled.condition_eq).2.1

theorem type_of_ofOwners_singleton {key : PublicKey} {lock : Fulfillment}
    (made : Fulfillment.ofOwners [key] = .ok lock) : lock.condition.type ≠ .threshold := by
  rcases ofPublicKey_eq_ok made with ⟨_, _, rfl⟩ | ⟨_, _, _, rfl⟩ <;> exact nofun

theorem checkInput_of_sole {owner text : String} (sole : input.owners = [owner])
    (attached : input.fulfillment = some text) (read : Fulfillment.ofUri text = .ok f)
    (type : f.condition.type = .threshold) : checkInput message input ≠ .ok () := by
  intro passed
  obtain ⟨_, _, owners, lock, attached', read', known, locked, same, _⟩ := checkInput_eq_ok passed
  rw [attached] at attached'
  cases attached'
  rw [read] at read'
  cases read'
  have count : owners.length = 1 := by
    rw [← (mapM_eq_ok known).length_eq, sole]
    rfl
  obtain ⟨key, rfl⟩ := List.length_eq_one_iff.1 count
  exact type_of_ofOwners_singleton locked (same ▸ type)

theorem not_fulfilled_of_joint {owner : String} (one : t.inputs = [input])
    (sole : input.owners = [owner]) (made : t.fulfillMultiple keys signatures = .ok t') :
    t'.isFulfilled = .ok false := by
  obtain ⟨subs, f, text, parts, joined, link, attached⟩ := fulfillMultiple_eq_ok made
  obtain ⟨g, read, type⟩ := read_of_joint parts joined link
  rw [attachFirst_of_one one] at attached
  obtain rfl := Except.ok.inj attached
  rw [isFulfilled_of_one one]
  have calm : ∀ i ∈ [(⟨input.owners, input.spends, some text⟩ : Input)],
      checkInput t.signingBytes i ≠ .error (.condition .sizeOverflow) := by
    refine List.forall_mem_singleton.2 fun failed => ?_
    obtain ⟨_, same, overflow⟩ := checkInput_eq_overflow failed
    cases same
    rw [read] at overflow
    cases overflow
  obtain ⟨answer, answered⟩ := checkInputs_answers calm
  cases answer with
  | false => exact answered
  | true =>
    have passed := checkInputs_eq_ok answered _ List.mem_cons_self
    exact absurd passed (checkInput_of_sole sole rfl read type)

theorem exists_fulfillMultiple {keys : List Ed25519.PublicKey} (one : t.inputs = [input])
    (nonempty : 0 < keys.length) (few : keys.length ≤ Threshold.maxParts)
    (holds : List.Forall₂ (fun key signature =>
      Ed25519.verify key t.signingBytes signature = true) keys signatures) :
    ∃ t', t.fulfillMultiple (keys.map .ed25519) signatures = .ok t' := by
  obtain ⟨subs, made, parts⟩ := jointParts_of_verify holds
  obtain ⟨arranged, c, joined, perm⟩ := threshold_of_signed (by rwa [List.length_map])
    (by rwa [List.length_map]) parts (List.Perm.refl subs)
  rw [if_neg (Nat.not_lt.2 (openingLength_le_of_ed25519 few)), parts.length_eq] at joined
  obtain ⟨_, _, _, equal, _, assembled⟩ := Fulfillment.ofThreshold_eq_ok joined
  cases equal
  have signed (sub : Fulfillment) (mem : sub ∈ arranged) :
      ∃ key, SignedPart t.signingBytes key sub := by
    obtain ⟨key, _, part⟩ := exists_of_mem_right parts (perm.mem_iff.1 mem)
    exact ⟨key, part⟩
  obtain ⟨⟨shown, written, small⟩, shallow⟩ := written_of_shown (w := Weight.one) signed assembled
  obtain ⟨text, link, _⟩ := written.uri_received small shallow
  have same : ¬ (keys.map PublicKey.ed25519).length ≠ signatures.length := by
    rw [List.length_map, holds.length_eq]
    exact not_not.2 rfl
  refine ⟨t.withInputs [⟨input.owners, input.spends, some text⟩], ?_⟩
  simp only [fulfillMultiple, if_neg same, isEmpty_inputs one, made, joined, link,
    attachFirst_of_one one, ofCondition, bind, Except.bind, Bool.false_eq_true, if_false]

end Joint

/-- For a sole owner the two ways to sign come apart. What the owner signs alone fulfills the
transaction. The same signature is put on as a joint one too, and leaves the transaction as far from
fulfilled as whatever else is put together for one owner. -/
theorem fulfilled_alone_only (one : t.inputs = [input]) :
    (∀ (pair : Ed25519.KeyPair) (salt : Octets 32),
      input.owners = [(PublicKey.ed25519 pair.publicKey).base58] →
      Ed25519.verify pair.publicKey t.signingBytes (pair.sign t.signingBytes).bytes = true →
      (∃ t', t.fulfillSingle (.ed25519 pair) salt = .ok t' ∧ t'.isFulfilled = .ok true) ∧
      ∃ t', t.fulfillMultiple [.ed25519 pair.publicKey] [(pair.sign t.signingBytes).bytes] =
        .ok t' ∧ t'.isFulfilled = .ok false) ∧
    ∀ owner keys signatures t', input.owners = [owner] →
      t.fulfillMultiple keys signatures = .ok t' → t'.isFulfilled = .ok false := by
  refine ⟨fun pair salt sole holds => ⟨?_, ?_⟩,
    fun _ _ _ _ sole made => not_fulfilled_of_joint one sole made⟩
  · have signs : Signs t.signingBytes (.ed25519 pair) salt := ⟨_, rfl, holds⟩
    exact fulfillSingle_of_signs one True.intro sole signs
  · have all : List.Forall₂ (fun key signature =>
        Ed25519.verify key t.signingBytes signature = true) [pair.publicKey]
          [(pair.sign t.signingBytes).bytes] := .cons holds .nil
    have some : 0 < [pair.publicKey].length := Nat.one_pos
    have few : [pair.publicKey].length ≤ Threshold.maxParts := show 1 ≤ 32 by decide
    obtain ⟨t', made⟩ := exists_fulfillMultiple one some few all
    exact ⟨t', made, not_fulfilled_of_joint one sole made⟩

section Samples

open KeyPair

def onesTransaction : Transaction :=
  ⟨"", "", .create, .null, none, [⟨[onesOwner], none, none⟩], [], ⟨0, 0⟩⟩

def onesNonce : Nat :=
  2446920521883508715435768795051877277859446753241940814274129227365337914682

def onesChallenge : Nat :=
  7110317485277639939055829331029372248927516507996818009650092072371043422170

theorem onesPair_signs : Ed25519.verify onesPair.publicKey onesTransaction.signingBytes
    (onesPair.sign onesTransaction.signingBytes).bytes = true := by
  have drawn : Ed25519.littleEndian (sha512 ((Ed25519.Secret.ofSeed onesPair.seed).nonceKey ++
      onesTransaction.signingBytes)).bytes % Ed25519.order = onesNonce := by
    rw [Sha512.bytes_sha512, Ed25519.Secret.ofSeed, Sha512.bytes_sha512, signingBytes, signingText,
      Json.compact, utf8, String.toList_ofList]
    decide +kernel
  have challenged : Ed25519.challenge (Ed25519.Point.base.mul onesNonce).encode.bytes
      onesPair.publicKey.octets.bytes onesTransaction.signingBytes = onesChallenge := by
    rw [Ed25519.challenge, Sha512.bytes_sha512, signingBytes, signingText, Json.compact, utf8,
      String.toList_ofList]
    decide +kernel
  rw [Ed25519.KeyPair.verify_sign drawn challenged rfl, Ed25519.Secret.ofSeed, Sha512.bytes_sha512]
  decide +kernel

theorem fulfilled_alone_only_ones :
    (∃ t', onesTransaction.fulfillSingle (.ed25519 onesPair) onesSalt = .ok t' ∧
      t'.isFulfilled = .ok true) ∧
    ∃ t', onesTransaction.fulfillMultiple [.ed25519 onesPair.publicKey]
        [(onesPair.sign onesTransaction.signingBytes).bytes] = .ok t' ∧
      t'.isFulfilled = .ok false := by
  have sole : [onesOwner] = [(PublicKey.ed25519 onesPair.publicKey).base58] := by
    rw [base58_onesPair]
  obtain ⟨alone, _⟩ := fulfilled_alone_only (t := onesTransaction) rfl
  exact alone onesPair onesSalt sole onesPair_signs

end Samples

end Transaction

end CryptoConditions
