import CryptoConditions.Proofs.Fulfillment.Bound
import CryptoConditions.Proofs.Fulfillment.Identity
import CryptoConditions.Proofs.Fulfillment.Minimal
import CryptoConditions.Proofs.Fulfillment.Shown
import CryptoConditions.Proofs.Key.Text
import CryptoConditions.Proofs.Threshold.Headroom
import CryptoConditions.Proofs.Threshold.Unanimous
import CryptoConditions.Proofs.Transaction.Consent

/-! Signatures as parts of a fulfillment. A signature that holds has the condition that its key
locks with, and a payload whose length the key tells. Signatures of several keys, in whatever
order, make a threshold of the condition that the keys lock with, which shows all of them if
there is room. -/

namespace CryptoConditions

def PublicKey.payloadLength : PublicKey → Nat
  | ed25519 _ => 96
  | rsa key => 2 * key.modulus.length

def PublicKey.entryLength (key : PublicKey) : Nat :=
  Wire.uintLength 1 + Wire.octetsLength (2 + Wire.octetsLength key.payloadLength) + 1

theorem PublicKey.payloadLength_le (key : PublicKey) : key.payloadLength ≤ 1024 := by
  cases key with
  | ed25519 => exact (by decide : 96 ≤ 1024)
  | rsa key =>
    have most := key.modulus.length_le
    unfold Rsa.maxLength at most
    rw [payloadLength]
    omega

namespace Transaction

variable {message : Bytes} {key : PublicKey} {f : Fulfillment}

structure SignedPart (message : Bytes) (key : PublicKey) (f : Fulfillment) : Prop where
  signed : SignedBy message key f
  weight_eq : f.weight = Weight.one

theorem ed25519_length_of_verify {key : Ed25519.PublicKey} {signature : Bytes}
    (holds : Ed25519.verify key message signature = true) : signature.length = 64 := by
  unfold Ed25519.verify at holds
  rw [Bool.and_eq_true, Bool.and_eq_true] at holds
  exact eq_of_beq holds.1.1

theorem rsa_length_of_verify {key : Rsa.PublicKey} {signature : Bytes}
    (holds : Rsa.verify key message signature = true) :
    signature.length = key.modulus.length := by
  unfold Rsa.verify at holds
  rw [Bool.and_eq_true] at holds
  exact eq_of_beq holds.1

theorem ofSignature_of_verify (standard : key.Standard) {signature : Bytes}
    (holds : key.verify message signature = true) :
    ∃ f, Fulfillment.ofSignature signature key = .ok f ∧ SignedPart message key f := by
  cases key with
  | ed25519 key =>
    have long := ed25519_length_of_verify holds
    have made : Fulfillment.ofSignature signature (.ed25519 key) =
        .ok (.ed25519 Weight.one key (some ⟨signature, long⟩)) := by
      rw [Fulfillment.ofSignature, Fulfillment.ofEd25519, Octets.ofBytes?, dif_pos long]
    exact ⟨_, made, .ed25519 _ holds, rfl⟩
  | rsa key =>
    have long := rsa_length_of_verify holds
    have made : Fulfillment.ofSignature signature (.rsa key) =
        .ok (.rsa Weight.one key standard.2 (some ⟨signature, long⟩)) := by
      rw [Fulfillment.ofSignature, Fulfillment.ofRsa]
      dsimp only
      rw [dif_pos standard.2, Octets.ofBytes?, dif_pos long]
    exact ⟨_, made, .rsa _ _ holds, rfl⟩

namespace SignedBy

theorem wellFormed (signed : SignedBy message key f) : f.WellFormed := by
  cases signed with
  | ed25519 w holds => exact .ed25519 w _ _
  | rsa w long holds => exact .rsa w _ long _

theorem standardKeys (signed : SignedBy message key f) (standard : key.Standard) :
    f.StandardKeys := by
  cases signed with
  | ed25519 => exact Fulfillment.standardKeys_of_none (by simp only [Fulfillment.rsaKeys])
  | rsa => exact Fulfillment.standardKeys_rsa.2 standard.1

theorem shownHolds (signed : SignedBy message key f) : f.shownHolds message = true := by
  cases signed with
  | ed25519 w holds =>
    rw [Fulfillment.shownHolds]
    exact holds
  | rsa w long holds =>
    rw [Fulfillment.shownHolds]
    exact holds

theorem shownDepth (signed : SignedBy message key f) : f.shownDepth = 0 := by
  cases signed <;> rw [Fulfillment.shownDepth] <;> simp

theorem payload (signed : SignedBy message key f) :
    ∃ shown, f.payload = .ok shown ∧ shown.length = key.payloadLength := by
  cases signed with
  | @ed25519 w key signature =>
    refine ⟨_, (Fulfillment.Written.ed25519 w key signature).payload_eq, ?_⟩
    rw [List.length_append, key.octets.length_eq, signature.length_eq, PublicKey.payloadLength]
  | @rsa w key long signature =>
    refine ⟨_, (Fulfillment.Written.rsa w key long signature).payload_eq, ?_⟩
    rw [List.length_append, Rsa.Modulus.bytes_length, signature.length_eq,
      PublicKey.payloadLength, Nat.two_mul]

theorem condition (signed : SignedBy message key f) :
    ∃ lock, Fulfillment.ofPublicKey key = .ok lock ∧ f.condition = lock.condition := by
  cases signed with
  | @ed25519 w key => exact ⟨.ed25519 Weight.one key none, rfl, rfl⟩
  | @rsa w key long =>
    refine ⟨.rsa Weight.one key long none, ?_, rfl⟩
    rw [Fulfillment.ofPublicKey, Fulfillment.ofRsa]
    dsimp only
    rw [dif_pos long]

theorem size (signed : SignedBy message key f) : f.condition.size.toNat = key.payloadLength := by
  have small := key.payloadLength_le
  cases signed with
  | ed25519 => exact Fulfillment.simpleCondition_size (by decide)
  | rsa => exact Fulfillment.simpleCondition_size (by rw [PublicKey.payloadLength] at small; omega)

end SignedBy

end Transaction

end CryptoConditions
