import CryptoConditions.Proofs.Fulfillment.Binding
import CryptoConditions.Proofs.Fulfillment.RoundTrip
import CryptoConditions.Proofs.Threshold.Size

/-! The size of a condition bounds every payload of a fulfillment that has it. A threshold
declares the greatest length over all choices of parts that reach it, each part as long as
its own condition allows; whatever is shown, by choice or as it was received, is one of
these choices. -/

namespace CryptoConditions.Fulfillment

theorem entries_length_le {subs : List Fulfillment} {flags : List Bool} {bytes : Bytes}
    (inner : ∀ sub shown, (sub, true) ∈ subs.zip flags → sub.payload = .ok shown →
      shown.length < 2 ^ 64 → shown.length ≤ sub.condition.size.toNat)
    (written : entries subs flags = .ok bytes) (small : bytes.length < 2 ^ 64) :
    bytes.length ≤
      Threshold.Extent.chosenLength ((subs.map commitment).map Threshold.fullExtent) flags := by
  induction subs generalizing flags bytes with
  | nil =>
    cases written
    exact Nat.zero_le _
  | cons sub subs ih =>
    cases flags with
    | nil =>
      cases written
      exact Nat.zero_le _
    | cons flag flags =>
      have below part shown (mem : (part, true) ∈ subs.zip flags) :=
        inner part shown (List.mem_cons_of_mem _ mem)
      cases flag with
      | false =>
        obtain ⟨rest, others, rfl⟩ := entries_false.1 written
        rw [List.length_append] at small
        have tail := ih below others (by omega)
        rw [List.length_append, Threshold.hiddenEntry_length]
        exact Nat.add_le_add_left tail _
      | true =>
        obtain ⟨shown, rest, paid, others, rfl⟩ := entries_true.1 written
        rw [List.length_append, Threshold.revealedEntry_length, Threshold.revealedLength,
          frame_length] at small ⊢
        have short : shown.length < 2 ^ 64 := by
          unfold Wire.octetsLength at small
          omega
        have tail := ih below others (by omega)
        have bound := inner sub shown List.mem_cons_self paid short
        have framed := Wire.octetsLength_mono
          (Nat.add_le_add_left (Wire.octetsLength_mono bound) 2)
        exact Nat.add_le_add (Nat.add_le_add_right (Nat.add_le_add_left framed _) 1) tail

theorem chosenWeight_fullExtent (subs : List Fulfillment) (flags : List Bool) :
    Threshold.Extent.chosenWeight ((subs.map commitment).map Threshold.fullExtent) flags =
      revealedWeight (subs.zip flags) := by
  induction subs generalizing flags with
  | nil => rfl
  | cons sub subs ih =>
    cases flags with
    | nil => rfl
    | cons flag flags =>
      have rest := ih flags
      cases flag with
      | false => exact rest
      | true => exact congrArg (_ + ·) rest

theorem simpleCondition_size {type : ConditionType} {hash : Octets 32} {size : Nat}
    (small : size < 2 ^ 64) : (simpleCondition type hash size).size.toNat = size := by
  rw [simpleCondition, UInt64.toNat_ofNat', Nat.mod_eq_of_lt small]

theorem Written.length_le_size {f : Fulfillment} {shown : Bytes} (h : f.Written shown)
    (small : shown.length < 2 ^ 64) : shown.length ≤ f.condition.size.toNat := by
  induction h with
  | preimage w bytes => exact (simpleCondition_size small).ge
  | @prefixed w lead inner sub c made part ih =>
    obtain ⟨fits, same⟩ := ofPrefix_eq_ok.1 made
    cases same
    rw [List.length_append, Wire.octets_length, frame_length] at small ⊢
    have short : inner.length < 2 ^ 64 := by
      unfold Wire.octetsLength at small
      omega
    have framed := Wire.octetsLength_mono (ih short)
    rw [condition, UInt64.toNat_ofNat', Nat.mod_eq_of_lt fits]
    omega
  | ed25519 w key signature =>
    rw [List.length_append, key.octets.length_eq, signature.length_eq]
    exact (simpleCondition_size (by decide)).ge
  | rsa w key long signature =>
    have most := key.modulus.length_le
    unfold Rsa.maxLength at most
    rw [List.length_append, Rsa.Modulus.bytes_length, signature.length_eq, ← Nat.two_mul]
    exact (simpleCondition_size (by omega)).ge
  | @threshold w needed subs flags c bytes parts assembled written inner ih =>
    obtain ⟨n, sized, declared⟩ := Threshold.size_of_condition assembled.condition_eq
    obtain ⟨long, enough, _⟩ := assembled.revealing flags rfl
    rw [List.length_append, Threshold.header_length] at small ⊢
    have entered := entries_length_le ih written (by omega)
    have chosen := Threshold.chosenLength_le_size sized (by rw [long, List.length_map])
      (by rw [chosenWeight_fullExtent]; exact enough)
    obtain ⟨_, _, _, fits⟩ := Threshold.size_eq_ok sized
    rw [List.length_map] at chosen
    rw [condition, declared, UInt64.toNat_ofNat', Nat.mod_eq_of_lt fits]
    omega
  | timeout w expiry => exact (simpleCondition_size small).ge

/-- The size of a condition bounds the payload of what has it, and so of what verifies. -/
theorem payload_length_le_size {f : Fulfillment} (obtained : f.Obtained) {shown : Bytes}
    (paid : f.payload = .ok shown) (small : shown.length < 2 ^ 64) :
    shown.length ≤ f.condition.size.toNat ∧
      ∀ c message, f.verify c message = .ok () → shown.length ≤ c.size.toNat := by
  have bound := (obtained.wellFormed.written paid).length_le_size small
  refine ⟨bound, fun c message verified => ?_⟩
  obtain ⟨rfl, _⟩ := verify_eq_ok verified
  exact bound

theorem payload_length_le_size_sample : ∃ (f : Fulfillment) (shown : Bytes), f.Obtained ∧
    f.payload = .ok shown ∧ shown.length < 2 ^ 64 ∧ f.verify f.condition [] = .ok () ∧
      shown.length ≤ f.condition.size.toNat ∧
      ∀ c message, f.verify c message = .ok () → shown.length ≤ c.size.toNat := by
  obtain ⟨c, made⟩ := ofThreshold_sampleParts
  have obtained : Obtained (.threshold Weight.one 2 sampleParts (.revealed [true, false]) c) :=
    Built.threshold built_sampleParts made
  obtain ⟨shown, paid⟩ := obtained.wellFormed.payload rfl
  have small : shown.length < 2 ^ 64 := by
    cases obtained.wellFormed.written paid with
    | threshold _ assembled written =>
      exact Nat.lt_of_le_of_lt (assembled.length_le written) (by decide)
  have holds : (threshold Weight.one 2 sampleParts (.revealed [true, false]) c).validate [] =
      true := by
    simp [validate, validWeight, sampleParts, canReveal, weight, Weight.toNat]
  have verified : (threshold Weight.one 2 sampleParts (.revealed [true, false]) c).verify c [] =
      .ok () := by
    have same : (threshold Weight.one 2 sampleParts (.revealed [true, false]) c).condition = c :=
      rfl
    unfold verify
    rw [if_neg (not_not.2 same), if_pos holds]
  exact ⟨_, shown, obtained, paid, small, verified, payload_length_le_size obtained paid small⟩

end CryptoConditions.Fulfillment
