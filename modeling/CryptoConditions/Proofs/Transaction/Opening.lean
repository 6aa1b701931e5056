import CryptoConditions.Proofs.Transaction.Joint

/-! What opens an input. A fulfillment that arrives as it was sent, proves itself by what it shows
and has the condition that the keys lock with makes the input of these keys pass, whoever puts it
there. A signature does so for its key; signatures of several keys do so together, if there is
room for all of them. -/

namespace CryptoConditions.Transaction

variable {message : Bytes} {keys : List PublicKey} {f : Fulfillment}

/-- A fulfillment that opens, at the other end, what the keys lock. -/
structure Opens (message : Bytes) (keys : List PublicKey) (f : Fulfillment) : Prop where
  standard : ∀ key ∈ keys, key.Standard
  written : ∃ shown, f.Written shown ∧ shown.length < 2 ^ 64
  shallow : f.shownDepth ≤ Fulfillment.maxNesting
  standardKeys : f.StandardKeys
  holds : f.shownHolds message = true
  lock : ∃ lock, Fulfillment.ofOwners keys = .ok lock ∧ lock.condition = f.condition

section Inputs

variable {input : Input} {t : Transaction}

theorem keys_of_base58 (standard : ∀ key ∈ keys, key.Standard)
    (owners : input.owners = keys.map PublicKey.base58) : input.keys = .ok keys := by
  rw [Input.keys, owners]
  clear owners
  induction keys with
  | nil => rfl
  | cons key keys ih =>
    rw [List.forall_mem_cons] at standard
    rw [List.map_cons, List.mapM_cons, bind_of_ok (PublicKey.ofBase58_base58 standard.1),
      bind_of_ok (ih standard.2)]
    rfl

theorem checkInput_of_lock {lock : Fulfillment} {text : String} (known : input.keys = .ok keys)
    (locked : Fulfillment.ofOwners keys = .ok lock) (attached : input.fulfillment = some text)
    (read : Fulfillment.ofUri text = .ok f) :
    checkInput message input = ofCondition (f.verify lock.condition message) := by
  simp only [checkInput, attached, read, known, locked, ofCondition, bind, Except.bind]

namespace Opens

theorem uri (opens : Opens message keys f) :
    ∃ text, f.uri = .ok text ∧ Fulfillment.ofUri text = .ok f.received := by
  obtain ⟨shown, written, small⟩ := opens.written
  exact written.uri_received small opens.shallow

theorem checkInput (opens : Opens message keys f) {text : String}
    (read : Fulfillment.ofUri text = .ok f.received)
    (owners : input.owners = keys.map PublicKey.base58) :
    checkInput message ⟨input.owners, input.spends, some text⟩ = .ok () := by
  obtain ⟨shown, written, _⟩ := opens.written
  obtain ⟨lock, locked, same⟩ := opens.lock
  have known : Input.keys ⟨input.owners, input.spends, some text⟩ = .ok keys :=
    keys_of_base58 opens.standard owners
  have valid : f.received.validate message = true := by
    rw [written.validate_received opens.standardKeys]
    exact opens.holds
  have verified : f.received.verify lock.condition message = .ok () := by
    unfold Fulfillment.verify
    rw [Fulfillment.condition_received, same, if_neg (fun other => other rfl), if_pos valid]
  rw [checkInput_of_lock known locked rfl read, verified]
  rfl

end Opens

theorem signingBytes_withInputs {inputs : List Input}
    (same : (inputs.map fun i => (⟨i.owners, i.spends, none⟩ : Input)) =
      t.inputs.map fun i => ⟨i.owners, i.spends, none⟩) :
    (t.withInputs inputs).signingBytes = t.signingBytes := by
  simp only [signingBytes, signingText, unsigned, withInputs, same]

theorem attachFirst_of_one (one : t.inputs = [input]) (text : String) :
    t.attachFirst text = .ok (t.withInputs [⟨input.owners, input.spends, some text⟩]) := by
  rw [attachFirst, one]

theorem isFulfilled_of_one (one : t.inputs = [input]) (text : String) :
    (t.withInputs [⟨input.owners, input.spends, some text⟩]).isFulfilled =
      checkInputs t.signingBytes [⟨input.owners, input.spends, some text⟩] := by
  have bytes : (t.withInputs [⟨input.owners, input.spends, some text⟩]).signingBytes =
      t.signingBytes := signingBytes_withInputs (by rw [one]; rfl)
  rw [isFulfilled, bytes]
  rfl

theorem Opens.isFulfilled (one : t.inputs = [input])
    (owners : input.owners = keys.map PublicKey.base58) (opens : Opens t.signingBytes keys f) :
    ∃ text t', f.uri = .ok text ∧ t.attach [f] = .ok t' ∧ t.attachFirst text = .ok t' ∧
      t'.isFulfilled = .ok true := by
  obtain ⟨text, link, read⟩ := opens.uri
  refine ⟨text, t.withInputs [⟨input.owners, input.spends, some text⟩], link, ?_,
    attachFirst_of_one one text, ?_⟩
  · have links : [f].mapM Fulfillment.uri = .ok [text] := by
      rw [List.mapM_cons, bind_of_ok link]
      rfl
    rw [attach, links, one]
    rfl
  · have passed := opens.checkInput read owners
    rw [isFulfilled_of_one one]
    simp only [checkInputs, passed]

theorem attach_of_uri_error {e : ConditionError} (one : t.inputs = [input])
    (stuck : f.uri = .error e) : t.attach [f] = .error (.condition e) := by
  have links : [f].mapM Fulfillment.uri = .error e := by
    rw [List.mapM_cons, bind_of_error stuck]
  rw [attach, one, links]
  rfl

end Inputs

theorem SignedPart.opens {key : PublicKey} (standard : key.Standard)
    (part : SignedPart message key f) : Opens message [key] f where
  standard := List.forall_mem_singleton.2 standard
  written := by
    obtain ⟨shown, paid, length⟩ := part.signed.payload
    have short := key.payloadLength_le
    exact ⟨shown, part.signed.wellFormed.written paid, by omega⟩
  shallow := by
    rw [part.signed.shownDepth]
    exact Nat.zero_le _
  standardKeys := part.signed.standardKeys standard
  holds := part.signed.shownHolds
  lock := by
    obtain ⟨lock, made, same⟩ := part.signed.condition
    exact ⟨lock, made, same.symm⟩

section Several

variable {subs arranged : List Fulfillment} {w : Weight} {needed : UInt32} {c : Condition}

theorem written_of_shown {flags : List Bool}
    (signed : ∀ sub ∈ arranged, ∃ key, SignedPart message key sub)
    (assembled : Fulfillment.Assembled needed arranged (.revealed flags) c) :
    (∃ shown, (Fulfillment.threshold w needed arranged (.revealed flags) c).Written shown ∧
      shown.length < 2 ^ 64) ∧
    (Fulfillment.threshold w needed arranged (.revealed flags) c).shownDepth ≤
      Fulfillment.maxNesting := by
  have wellFormed : (Fulfillment.threshold w needed arranged (.revealed flags) c).WellFormed := by
    refine .threshold (fun sub mem => ?_) assembled
    obtain ⟨key, part⟩ := signed sub mem
    exact part.signed.wellFormed
  constructor
  · obtain ⟨payload, paid⟩ := wellFormed.payload rfl
    have written := wellFormed.written paid
    exact ⟨payload, written, written.length_lt rfl⟩
  · rw [Fulfillment.shownDepth, Fulfillment.entriesDepth_le_iff]
    intro sub mem
    obtain ⟨key, part⟩ := signed sub (List.of_mem_zip mem).1
    rw [part.signed.shownDepth]
    decide

theorem opens_of_shown {flags : List Bool} (standard : ∀ key ∈ keys, key.Standard)
    (signed : ∀ sub ∈ arranged, ∃ key ∈ keys, SignedPart message key sub)
    (assembled : Fulfillment.Assembled needed arranged (.revealed flags) c)
    (lock : ∃ lock, Fulfillment.ofOwners keys = .ok lock ∧ lock.condition = c) :
    Opens message keys (.threshold w needed arranged (.revealed flags) c) := by
  have parts (sub : Fulfillment) (mem : sub ∈ arranged) : ∃ key, SignedPart message key sub := by
    obtain ⟨key, _, part⟩ := signed sub mem
    exact ⟨key, part⟩
  obtain ⟨written, shallow⟩ := written_of_shown parts assembled
  refine ⟨standard, written, shallow, ?_, ?_, lock⟩
  · refine Fulfillment.standardKeys_threshold.2 fun sub mem => ?_
    obtain ⟨key, inside, part⟩ := signed sub mem
    exact part.signed.standardKeys (standard key inside)
  · have all : Fulfillment.shownWeight arranged flags message =
        Fulfillment.revealedWeight (arranged.zip flags) := by
      refine Fulfillment.shownWeight_of_all fun sub mem => ?_
      obtain ⟨key, part⟩ := parts sub (List.of_mem_zip mem).1
      exact part.signed.shownHolds
    rw [Fulfillment.shownHolds, decide_eq_true_eq, all]
    exact (assembled.revealing flags rfl).enough

theorem opens_of_joint {order : List Fulfillment} (several : 2 ≤ keys.length)
    (few : keys.length ≤ Threshold.maxParts) (standard : ∀ key ∈ keys, key.Standard)
    (signed : List.Forall₂ (SignedPart message) keys subs) (perm : order.Perm subs) :
    ∃ f, Fulfillment.ofThreshold (UInt32.ofNat keys.length) order = .ok f ∧
      (openingLength keys ≤ Threshold.maxPayload → Opens message keys f) ∧
      (Threshold.maxPayload < openingLength keys →
        f.uri = .error (.payloadTooLarge (openingLength keys))) := by
  obtain ⟨arranged, c, lock, made, arrangement, locked, same⟩ :=
    joint_of_signed several few signed perm
  refine ⟨_, made, fun fits => ?_, fun large => ?_⟩
  · rw [if_neg (Nat.not_lt.2 fits)] at made ⊢
    obtain ⟨_, _, _, equal, _, assembled⟩ := Fulfillment.ofThreshold_eq_ok made
    cases equal
    refine opens_of_shown standard (fun sub mem => ?_) assembled ⟨lock, locked, same⟩
    exact exists_of_mem_right signed (arrangement.mem_iff.1 mem)
  · rw [if_pos large, Fulfillment.uri, bind_of_error]
    simp only [Fulfillment.payload]

end Several

end CryptoConditions.Transaction
