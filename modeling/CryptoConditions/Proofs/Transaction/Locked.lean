import CryptoConditions.Proofs.Document.Disclosed
import CryptoConditions.Proofs.Transaction.Honest

/-! Lock and key. Who locks an output has the keys; who checks an input has their texts, in
whatever order they were written. Both come to one condition: the texts name the keys, and the
canonical order of the parts does not show how the keys stood. Where they come to none, both have
the same fault. -/

namespace CryptoConditions

namespace Transaction

variable {keys order : List PublicKey}

theorem wellFormed_ofOwners {lock : Fulfillment} (made : Fulfillment.ofOwners keys = .ok lock) :
    lock.WellFormed := by
  unfold Fulfillment.ofOwners at made
  split at made
  · cases made
  · exact (ofPublicKey_sound made).1
  · obtain ⟨locks, single, made⟩ := bind_eq_ok.1 made
    obtain ⟨order, selection, c, rfl, perm, assembled⟩ := Fulfillment.ofThreshold_eq_ok made
    refine .threshold (fun sub mem => ?_) assembled
    exact forall_of_mapM (fun _ _ single => (ofPublicKey_sound single).1) single sub
      (perm.mem_iff.1 mem)

theorem condition_ofOwners_perm (standard : ∀ key ∈ keys, key.Standard) (perm : order.Perm keys) :
    (Fulfillment.ofOwners order).map Fulfillment.condition =
      (Fulfillment.ofOwners keys).map Fulfillment.condition := by
  match keys, perm with
  | [], perm => rw [perm.eq_nil]
  | [key], perm => rw [List.perm_singleton.1 perm]
  | first :: second :: keys, perm =>
    obtain ⟨locks, made, _⟩ := mapM_ofPublicKey_of_standard standard
    obtain ⟨others, made', arranged⟩ := mapM_perm perm.symm made
    have count := (mapM_eq_ok made).length_eq
    have several : 2 ≤ (first :: second :: keys).length := Nat.le_add_left 2 _
    rw [ofOwners_of_several several made, ofOwners_of_several (perm.length_eq ▸ several) made',
      Fulfillment.map_condition_ofThreshold, Fulfillment.map_condition_ofThreshold,
      perm.length_eq, arranged.length_eq, Fulfillment.condition_arrange_congr _ (arranged.map _)]

/-- What owners lock is what is asked of them. An output for up to as many keys as a threshold may
have parts can be made; its document has a condition, and this is the one that is asked of the
fulfillment of an input of the same owners, in whatever order they are written there. For more keys
neither can be made, and both have the same fault, that of too many parts if their number fits 32
bits; and nothing is locked to nobody. -/
theorem demanded_of_locked (accepted : ∀ key ∈ keys, ∃ bytes, PublicKey.ofBytes bytes = .ok key)
    (perm : order.Perm keys) (amount : UInt64) (input : Input)
    (owners : input.owners = order.map PublicKey.base58) :
    input.keys = .ok order ∧
    (keys ≠ [] → keys.length ≤ Threshold.maxParts →
      ∃ output c lock, Output.ofOwners amount keys = .ok output ∧
        output.condition.toCondition = .ok c ∧
        Fulfillment.ofOwners order = .ok lock ∧ lock.condition = c ∧
        lock.condition.uri = output.condition.uri ∧
        ∀ message text f, input.fulfillment = some text → Fulfillment.ofUri text = .ok f →
          checkInput message input = ofCondition (f.verify c message)) ∧
    (Threshold.maxParts < keys.length →
      ∃ error, Output.ofOwners amount keys = .error (.condition error) ∧
        Fulfillment.ofOwners order = .error error ∧
        (keys.length < 2 ^ 32 → error = .tooManySubfulfillments keys.length)) ∧
    (keys = [] →
      Output.ofOwners amount keys = .error (.condition (.condition .noOwner)) ∧
        Fulfillment.ofOwners order = .error (.condition .noOwner)) := by
  have standard (key : PublicKey) (mem : key ∈ keys) : key.Standard := by
    obtain ⟨_, read⟩ := accepted key mem
    exact PublicKey.standard_of_ofBytes read
  have standard' (key : PublicKey) (mem : key ∈ order) : key.Standard :=
    standard key (perm.mem_iff.1 mem)
  have known := keys_of_base58 standard' owners
  refine ⟨known, fun nonempty few => ?_, fun many => ?_, ?_⟩
  · obtain ⟨own, locked⟩ := ofOwners_of_standard nonempty few standard
    have conditions := condition_ofOwners_perm standard perm
    rw [locked] at conditions
    cases demanded : Fulfillment.ofOwners order with
    | error e =>
      rw [demanded] at conditions
      cases conditions
    | ok lock =>
      rw [demanded] at conditions
      have same : lock.condition = own.condition := Except.ok.inj conditions
      refine ⟨⟨amount, .ofFulfillment own, keys.map PublicKey.base58⟩, own.condition, lock,
        by rw [Output.ofOwners, locked],
        ConditionDocument.toCondition_of_wellFormed (wellFormed_ofOwners locked), rfl, same,
        congrArg Condition.uri same, fun message text f attached read => ?_⟩
      rw [checkInput_of_lock known demanded attached read, same]
  · have many' : Threshold.maxParts < order.length := perm.length_eq ▸ many
    refine ⟨refusal keys.length, ?_, ?_, refusal_of_lt (Nat.zero_lt_of_lt many)⟩
    · rw [Output.ofOwners, ofOwners_of_many standard many]
    · rw [ofOwners_of_many standard' many', perm.length_eq]
  · rintro rfl
    rw [perm.eq_nil]
    exact ⟨rfl, rfl⟩

def sampleOwners : List PublicKey :=
  [.ed25519 neutralKey, .rsa mersenneKey.publicKey, .ed25519 neutralKey]

theorem demanded_of_locked_sample :
    (∀ key ∈ sampleOwners, ∃ bytes, PublicKey.ofBytes bytes = .ok key) ∧
    sampleOwners.reverse.Perm sampleOwners ∧
    (Input.ofOwners sampleOwners.reverse none).owners =
      sampleOwners.reverse.map PublicKey.base58 ∧
    ∃ output c lock, Output.ofOwners 1 sampleOwners = .ok output ∧
      output.condition.toCondition = .ok c ∧
      Fulfillment.ofOwners sampleOwners.reverse = .ok lock ∧ lock.condition = c ∧
      lock.condition.uri = output.condition.uri := by
  have accepted : ∀ key ∈ sampleOwners, ∃ bytes, PublicKey.ofBytes bytes = .ok key := by
    have neutral := PublicKey.ofBytes_octets neutralKey
    have mersenne := PublicKey.ofBytes_bytes mersenneKey_standard
    exact List.forall_mem_cons.2 ⟨⟨_, neutral⟩, List.forall_mem_cons.2
      ⟨⟨_, mersenne⟩, List.forall_mem_singleton.2 ⟨_, neutral⟩⟩⟩
  have perm := List.reverse_perm sampleOwners
  obtain ⟨_, agree, _⟩ := demanded_of_locked accepted perm 1
    (Input.ofOwners sampleOwners.reverse none) rfl
  obtain ⟨output, c, lock, made, described, demanded, same, uri, _⟩ :=
    agree (List.cons_ne_nil _ _) (show 3 ≤ 32 by decide)
  exact ⟨accepted, perm, rfl, output, c, lock, made, described, demanded, same, uri⟩

end Transaction

end CryptoConditions
