import CryptoConditions.Proofs.Transaction.Signed

/-! Signatures of several keys together. In whatever order they are given, they make a threshold
of the condition that the keys lock with, which shows all of them if there is room; and how much
room they take is told by the keys. -/

namespace CryptoConditions

namespace Fulfillment

theorem room_of_small {parts : List Fulfillment} (most : parts.length ≤ Threshold.maxParts)
    (small : ∀ sub ∈ parts, sub.condition.size.toNat ≤ 2 ^ 32) :
    Threshold.room (parts.map commitment) < 2 ^ 64 := by
  have entries : (((parts.map commitment).map Threshold.fullExtent).map
      Threshold.Extent.most).sum ≤ parts.length * 2 ^ 33 := by
    clear most
    induction parts with
    | nil => exact Nat.zero_le _
    | cons sub parts ih =>
      rw [List.forall_mem_cons] at small
      have first := Threshold.most_fullExtent_le sub.commitment
      have size : sub.commitment.condition.size.toNat ≤ 2 ^ 32 := small.1
      have rest := ih small.2
      simp only [List.map_cons, List.sum_cons, List.length_cons] at rest ⊢
      omega
  unfold Threshold.maxParts at most
  have header : Threshold.headerLength parts.length ≤ 4 + 5 :=
    Nat.add_le_add_left (Wire.uintLength_le (by omega)) 4
  rw [Threshold.room, List.length_map]
  omega

theorem ofThreshold_of_small {needed : UInt32} {parts : List Fulfillment}
    (shape : Threshold.checkShape needed parts.length = .ok ())
    (few : needed.toNat < Threshold.maxSums)
    (enough : needed.toNat ≤ Threshold.totalWeight (parts.map commitment))
    (small : ∀ sub ∈ parts, sub.condition.size.toNat ≤ 2 ^ 32) :
    ∃ f, ofThreshold needed parts = .ok f := by
  -- What is put together are the parts in canonical order.
  have perm := Threshold.arranged_perm commitment parts
  have total : Threshold.totalWeight ((Threshold.arranged commitment parts).map commitment) =
      Threshold.totalWeight (parts.map commitment) := ((perm.map commitment).map _).sum_nat
  have room := room_of_small (perm.length_eq ▸ (checkShape_eq_ok.1 shape).2.2)
    fun sub mem => small sub (perm.mem_iff.1 mem)
  obtain ⟨c, conditioned⟩ := Threshold.condition_of_few room few (by rw [total]; exact enough)
  exact ⟨_, by rw [ofThreshold_eq, bind_of_ok shape]; exact bind_of_ok conditioned _⟩

theorem totalWeight_of_ones {parts : List Fulfillment}
    (ones : ∀ sub ∈ parts, sub.weight = Weight.one) :
    Threshold.totalWeight (parts.map commitment) = parts.length := by
  induction parts with
  | nil => rfl
  | cons sub parts ih =>
    rw [List.forall_mem_cons] at ones
    have one : sub.commitment.weight.toNat = 1 := congrArg Weight.toNat ones.1
    have rest := ih ones.2
    rw [Threshold.totalWeight] at rest ⊢
    rw [List.map_cons, List.map_cons, List.sum_cons, rest, one, List.length_cons, Nat.add_comm]

theorem ofNat_ne_zero {count : Nat} (pos : 0 < count) (small : count < 2 ^ 32) :
    UInt32.ofNat count ≠ 0 := by
  intro zero
  have value := congrArg UInt32.toNat zero
  rw [UInt32.toNat_ofNat', Nat.mod_eq_of_lt small, UInt32.toNat_zero] at value
  omega

theorem ofThreshold_of_all {parts : List Fulfillment} (nonempty : 0 < parts.length)
    (few : parts.length ≤ Threshold.maxParts) (ones : ∀ sub ∈ parts, sub.weight = Weight.one)
    (small : ∀ sub ∈ parts, sub.condition.size.toNat ≤ 2 ^ 32) :
    ∃ f, ofThreshold (UInt32.ofNat parts.length) parts = .ok f := by
  unfold Threshold.maxParts at few
  have number : (UInt32.ofNat parts.length).toNat = parts.length := by
    rw [UInt32.toNat_ofNat', Nat.mod_eq_of_lt (by omega)]
  have nonzero := ofNat_ne_zero nonempty (show parts.length < 2 ^ 32 by omega)
  refine ofThreshold_of_small (checkShape_eq_ok.2 ⟨nonzero, nonempty, few⟩) ?_ ?_ small
  · rw [number, Threshold.maxSums]
    omega
  · rw [number, totalWeight_of_ones ones]

theorem ofOwners_eq_bind {keys : List PublicKey} (several : 2 ≤ keys.length) :
    ofOwners keys = keys.mapM ofPublicKey >>= ofThreshold (UInt32.ofNat keys.length) := by
  match keys, several with
  | _ :: _ :: _, _ => rfl

theorem ofThreshold_of_many {needed : UInt32} {subs : List Fulfillment}
    (many : Threshold.maxParts < subs.length) : ofThreshold needed subs =
      .error (if needed = 0 then .fulfillment .zeroThreshold
        else .tooManySubfulfillments subs.length) := by
  have refused : Threshold.checkShape needed subs.length =
      .error (if needed = 0 then .fulfillment .zeroThreshold
        else .tooManySubfulfillments subs.length) := by
    have some : subs.length ≠ 0 := Nat.ne_zero_of_lt many
    rw [Threshold.checkShape]
    by_cases zero : needed = 0
    · rw [if_pos zero, if_pos zero]
    · rw [if_neg zero, if_neg zero, if_neg some, if_pos many]
  exact bind_of_error refused _

end Fulfillment

namespace Transaction

variable {message : Bytes}

/-- The length of a payload that shows signatures of all keys. -/
def openingLength (keys : List PublicKey) : Nat :=
  Threshold.headerLength keys.length + (keys.map PublicKey.entryLength).sum

theorem openingLength_perm {keys others : List PublicKey} (perm : keys.Perm others) :
    openingLength keys = openingLength others := by
  rw [openingLength, openingLength, perm.length_eq, (perm.map PublicKey.entryLength).sum_nat]

theorem choice_of_signed {keys : List PublicKey} {subs : List Fulfillment}
    (signed : List.Forall₂ (SignedPart message) keys subs) :
    Threshold.Choice (subs.map fun sub => Fulfillment.share sub.commitment sub)
      (List.replicate subs.length true) (keys.map PublicKey.entryLength).sum subs.length := by
  induction signed with
  | nil => exact .nil
  | @cons key sub keys subs part _ ih =>
    obtain ⟨shown, paid, length⟩ := part.signed.payload
    have weight : sub.commitment.weight = Weight.one := part.weight_eq
    have one : sub.commitment.weight.toNat = 1 := by
      rw [weight]
      rfl
    have entry : Threshold.revealedLength sub.commitment (Fulfillment.frame sub.type shown).length =
        key.entryLength := by
      rw [Threshold.revealedLength, one, Fulfillment.frame_length, length, PublicKey.entryLength]
    have choice := Threshold.Choice.reveal (Fulfillment.share_of_payload paid) ih
    rw [show (Fulfillment.share sub.commitment sub).part = sub.commitment from rfl, entry, one,
      Nat.add_comm 1] at choice
    exact choice

theorem select_of_signed {keys : List PublicKey} {subs : List Fulfillment} {needed : UInt32}
    (signed : List.Forall₂ (SignedPart message) keys subs) (all : needed.toNat = keys.length) :
    Threshold.select needed (subs.map fun sub => Fulfillment.share sub.commitment sub) =
      if Threshold.maxPayload < openingLength keys then .tooLarge (openingLength keys)
      else .revealed (List.replicate subs.length true) := by
  have choice := choice_of_signed signed
  have length := signed.length_eq
  have count : (subs.map fun sub => Fulfillment.share sub.commitment sub).length = subs.length :=
    List.length_map _
  have ones (share : Threshold.Share)
      (mem : share ∈ subs.map fun sub => Fulfillment.share sub.commitment sub) :
      share.part.weight.toNat = 1 := by
    obtain ⟨sub, inside, rfl⟩ := List.mem_map.1 mem
    obtain ⟨_, _, part⟩ := exists_of_mem_right signed inside
    exact congrArg Weight.toNat part.weight_eq
  rw [openingLength, length]
  rw [← count] at choice ⊢
  exact Threshold.select_all ones (by omega) choice

theorem locks_of_signed {keys : List PublicKey} {subs : List Fulfillment}
    (signed : List.Forall₂ (SignedPart message) keys subs) :
    ∃ locks, keys.mapM Fulfillment.ofPublicKey = .ok locks ∧
      (locks.map fun sub => sub.commitment.share) = subs.map fun sub => sub.commitment.share := by
  induction signed with
  | nil => exact ⟨[], rfl, rfl⟩
  | cons part _ ih =>
    obtain ⟨locks, made, shares⟩ := ih
    obtain ⟨lock, first, condition⟩ := part.signed.condition
    refine ⟨lock :: locks, by rw [List.mapM_cons, bind_of_ok first, bind_of_ok made]; rfl, ?_⟩
    rw [List.map_cons, List.map_cons, shares, Fulfillment.share_commitment,
      Fulfillment.share_commitment, part.weight_eq, (ofPublicKey_sound first).2, condition]

theorem ofOwners_of_several {keys : List PublicKey} {locks : List Fulfillment}
    (several : 2 ≤ keys.length) (made : keys.mapM Fulfillment.ofPublicKey = .ok locks) :
    Fulfillment.ofOwners keys = Fulfillment.ofThreshold (UInt32.ofNat keys.length) locks := by
  rw [Fulfillment.ofOwners_eq_bind several, bind_of_ok made]

theorem lock_of_signed {keys : List PublicKey} {subs order : List Fulfillment} {c : Condition}
    (several : 2 ≤ keys.length) (signed : List.Forall₂ (SignedPart message) keys subs)
    (perm : order.Perm subs)
    (made : (Fulfillment.ofThreshold (UInt32.ofNat keys.length) order).map
      Fulfillment.condition = .ok c) :
    ∃ lock, Fulfillment.ofOwners keys = .ok lock ∧ lock.condition = c := by
  obtain ⟨locks, unsigned, shares⟩ := locks_of_signed signed
  have length : locks.length = order.length := by
    rw [← (mapM_eq_ok unsigned).length_eq, signed.length_eq, perm.length_eq]
  have same : (Fulfillment.ofThreshold (UInt32.ofNat keys.length) locks).map
      Fulfillment.condition = .ok c := by
    rw [← made, Fulfillment.map_condition_ofThreshold, Fulfillment.map_condition_ofThreshold,
      length, Fulfillment.condition_arrange_congr _ (shares ▸ (perm.map _).symm)]
  rw [ofOwners_of_several several unsigned]
  cases locked : Fulfillment.ofThreshold (UInt32.ofNat keys.length) locks with
  | error e =>
    rw [locked] at same
    cases same
  | ok lock =>
    rw [locked] at same
    exact ⟨lock, rfl, Except.ok.inj same⟩

theorem threshold_of_signed {keys : List PublicKey} {subs order : List Fulfillment}
    (nonempty : 0 < keys.length) (few : keys.length ≤ Threshold.maxParts)
    (signed : List.Forall₂ (SignedPart message) keys subs) (perm : order.Perm subs) :
    ∃ arranged c, Fulfillment.ofThreshold (UInt32.ofNat keys.length) order =
        .ok (.threshold Weight.one (UInt32.ofNat keys.length) arranged
          (if Threshold.maxPayload < openingLength keys then .tooLarge (openingLength keys)
            else .revealed (List.replicate arranged.length true)) c) ∧ arranged.Perm subs := by
  have count : order.length = keys.length := by rw [perm.length_eq, signed.length_eq]
  have part (sub : Fulfillment) (mem : sub ∈ order) : ∃ key ∈ keys, SignedPart message key sub :=
    exists_of_mem_right signed (perm.mem_iff.1 mem)
  obtain ⟨f, made⟩ : ∃ f, Fulfillment.ofThreshold (UInt32.ofNat keys.length) order = .ok f := by
    rw [← count] at few ⊢
    refine Fulfillment.ofThreshold_of_all (by omega) few (fun sub mem => ?_) fun sub mem => ?_
    · obtain ⟨_, _, found⟩ := part sub mem
      exact found.weight_eq
    · obtain ⟨key, _, found⟩ := part sub mem
      have le := key.payloadLength_le
      rw [found.signed.size]
      omega
  obtain ⟨arranged, selection, c, rfl, perm', _⟩ := Fulfillment.ofThreshold_eq_ok made
  have arrangement := perm'.trans perm
  -- All signatures are shown, in the order that they are arranged in.
  obtain ⟨signers, matched, signers_perm⟩ := List.perm_comp_forall₂ arrangement signed.flip
  have number : (UInt32.ofNat keys.length).toNat = signers.length := by
    unfold Threshold.maxParts at few
    rw [UInt32.toNat_ofNat', signers_perm.length_eq, Nat.mod_eq_of_lt (by omega)]
  have selected := Fulfillment.selection_of_ofThreshold made
  rw [select_of_signed matched.flip number, openingLength_perm signers_perm] at selected
  rw [selected] at made
  exact ⟨arranged, c, made, arrangement⟩

theorem joint_of_signed {keys : List PublicKey} {subs order : List Fulfillment}
    (several : 2 ≤ keys.length) (few : keys.length ≤ Threshold.maxParts)
    (signed : List.Forall₂ (SignedPart message) keys subs) (perm : order.Perm subs) :
    ∃ arranged c lock, Fulfillment.ofThreshold (UInt32.ofNat keys.length) order =
        .ok (.threshold Weight.one (UInt32.ofNat keys.length) arranged
          (if Threshold.maxPayload < openingLength keys then .tooLarge (openingLength keys)
            else .revealed (List.replicate arranged.length true)) c) ∧
      arranged.Perm subs ∧ Fulfillment.ofOwners keys = .ok lock ∧ lock.condition = c := by
  obtain ⟨arranged, c, made, arrangement⟩ :=
    threshold_of_signed (Nat.zero_lt_of_lt several) few signed perm
  have conditions : (Fulfillment.ofThreshold (UInt32.ofNat keys.length) order).map
      Fulfillment.condition = .ok c := by
    rw [made]
    rfl
  obtain ⟨lock, locked, same⟩ := lock_of_signed several signed perm conditions
  exact ⟨arranged, c, lock, made, arrangement, locked, same⟩

theorem ofPublicKey_of_standard {key : PublicKey} (standard : key.Standard) :
    ∃ lock, Fulfillment.ofPublicKey key = .ok lock ∧ lock.weight = Weight.one ∧
      lock.condition.size.toNat = key.payloadLength := by
  have small := key.payloadLength_le
  cases key with
  | ed25519 key => exact ⟨_, rfl, rfl, Fulfillment.simpleCondition_size (by decide)⟩
  | rsa key =>
    have made : Fulfillment.ofPublicKey (.rsa key) = .ok (.rsa Weight.one key standard.2 none) := by
      rw [Fulfillment.ofPublicKey, Fulfillment.ofRsa]
      exact dif_pos standard.2
    rw [PublicKey.payloadLength] at small
    exact ⟨_, made, rfl, Fulfillment.simpleCondition_size (by omega)⟩

theorem mapM_ofPublicKey_of_standard {keys : List PublicKey}
    (standard : ∀ key ∈ keys, key.Standard) :
    ∃ locks, keys.mapM Fulfillment.ofPublicKey = .ok locks ∧
      ∀ lock ∈ locks, lock.weight = Weight.one ∧ lock.condition.size.toNat ≤ 2 ^ 32 := by
  obtain ⟨locks, made, paired⟩ := mapM_of_each fun key mem =>
    ofPublicKey_of_standard (standard key mem)
  refine ⟨locks, made, fun lock mem => ?_⟩
  obtain ⟨key, _, one, size⟩ := exists_of_mem_right paired mem
  have small := key.payloadLength_le
  exact ⟨one, by omega⟩

theorem ofOwners_of_standard {keys : List PublicKey} (nonempty : keys ≠ [])
    (few : keys.length ≤ Threshold.maxParts) (standard : ∀ key ∈ keys, key.Standard) :
    ∃ lock, Fulfillment.ofOwners keys = .ok lock := by
  obtain ⟨locks, made, sound⟩ := mapM_ofPublicKey_of_standard standard
  have count := (mapM_eq_ok made).length_eq
  match keys, nonempty with
  | [key], _ =>
    obtain ⟨lock, single, _⟩ := ofPublicKey_of_standard (standard key List.mem_cons_self)
    exact ⟨lock, single⟩
  | first :: second :: keys, _ =>
    obtain ⟨lock, joined⟩ := Fulfillment.ofThreshold_of_all
      (Nat.lt_of_lt_of_eq (Nat.zero_lt_succ _) count) (count ▸ few)
      (fun lock mem => (sound lock mem).1) fun lock mem => (sound lock mem).2
    rw [← count] at joined
    exact ⟨lock, (ofOwners_of_several (Nat.le_add_left 2 _) made).trans joined⟩

/-- The fault of so many keys; their number counts in 32 bits. -/
def refusal (count : Nat) : ConditionError :=
  if UInt32.ofNat count = 0 then .fulfillment .zeroThreshold else .tooManySubfulfillments count

theorem refusal_of_lt {count : Nat} (pos : 0 < count) (small : count < 2 ^ 32) :
    refusal count = .tooManySubfulfillments count :=
  if_neg (Fulfillment.ofNat_ne_zero pos small)

theorem ofOwners_of_many {keys : List PublicKey} (standard : ∀ key ∈ keys, key.Standard)
    (many : Threshold.maxParts < keys.length) :
    Fulfillment.ofOwners keys = .error (refusal keys.length) := by
  obtain ⟨locks, made, _⟩ := mapM_ofPublicKey_of_standard standard
  have count := (mapM_eq_ok made).length_eq
  have several : 2 ≤ keys.length := Nat.le_trans (by decide) many.le
  rw [ofOwners_of_several several made, Fulfillment.ofThreshold_of_many (count ▸ many), ← count]
  rfl

end Transaction

end CryptoConditions
