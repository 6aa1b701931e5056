import CryptoConditions.Fulfillment.Reader
import CryptoConditions.Proofs.Steps
import CryptoConditions.Proofs.Threshold.Fingerprint
import CryptoConditions.Proofs.Threshold.Search

/-! What holds of every fulfillment, at every level: conditions are those of the
parts, the parts of a threshold stand in canonical order, and what is selected
can be written and reaches the threshold. -/

namespace CryptoConditions.Fulfillment

theorem commitment_withWeight (w : Weight) (f : Fulfillment) :
    (f.withWeight w).commitment = ⟨f.condition, w, f.publicKey⟩ := by
  cases f <;> rfl

theorem share_commitment (f : Fulfillment) : f.commitment.share = (f.weight, f.condition) := rfl

@[simp] theorem condition_withWeight (w : Weight) (f : Fulfillment) :
    (f.withWeight w).condition = f.condition := by
  cases f <;> rfl

@[simp] theorem weight_withWeight (w : Weight) (f : Fulfillment) : (f.withWeight w).weight = w := by
  cases f <;> rfl

@[simp] theorem type_withWeight (w : Weight) (f : Fulfillment) :
    (f.withWeight w).type = f.type := by
  cases f <;> rfl

@[simp] theorem canReveal_withWeight (w : Weight) (f : Fulfillment) :
    (f.withWeight w).canReveal = f.canReveal := by
  cases f with
  | threshold _ _ _ selection _ => cases selection <;> rfl
  | _ => rfl

/-- Flags that reveal enough weight, in a payload that can be written and is not too long. -/
structure Revealing (needed : UInt32) (subs : List Fulfillment) (flags : List Bool) : Prop where
  length_eq : flags.length = subs.length
  enough : needed.toNat ≤ revealedWeight (subs.zip flags)
  fits : ∃ shown, entries subs flags = .ok shown ∧
    Threshold.headerLength subs.length + shown.length ≤ Threshold.maxPayload

/-- A threshold as assembling and reading leave it. -/
structure Assembled (needed : UInt32) (subs : List Fulfillment) (selection : Selection)
    (condition : Condition) : Prop where
  shape : Threshold.checkShape needed subs.length = .ok ()
  sorted : (subs.map commitment).Pairwise fun a b => a.precedes b = true
  condition_eq : Threshold.condition needed (subs.map commitment) = .ok condition
  revealing : ∀ flags, selection = .revealed flags → Revealing needed subs flags

inductive WellFormed : Fulfillment → Prop where
  | preimage (w : Weight) (bytes : Bytes) : WellFormed (.preimage w bytes)
  | prefixed {w : Weight} {lead : Bytes} {sub : Fulfillment} {c : Condition}
      (part : WellFormed sub) (made : ofPrefix lead sub = .ok (.prefixed Weight.one lead sub c)) :
      WellFormed (.prefixed w lead sub c)
  | ed25519 (w : Weight) (key : Ed25519.PublicKey) (signature : Option (Octets 64)) :
      WellFormed (.ed25519 w key signature)
  | rsa (w : Weight) (key : Rsa.PublicKey) (long : Rsa.minLength ≤ key.modulus.length)
      (signature : Option (Octets key.modulus.length)) : WellFormed (.rsa w key long signature)
  | threshold {w : Weight} {needed : UInt32} {subs : List Fulfillment} {selection : Selection}
      {c : Condition} (parts : ∀ sub ∈ subs, WellFormed sub)
      (assembled : Assembled needed subs selection c) :
      WellFormed (.threshold w needed subs selection c)
  | timeout (w : Weight) (expiry : UInt64) : WellFormed (.timeout w expiry)
  | withheld {commitment : Commitment} (consistent : commitment.condition.Consistent) :
      WellFormed (.withheld commitment)

theorem WellFormed.withWeight {f : Fulfillment} (h : f.WellFormed) (w : Weight) :
    (f.withWeight w).WellFormed := by
  cases h with
  | preimage _ bytes => exact .preimage w bytes
  | prefixed part made => exact .prefixed part made
  | ed25519 _ key signature => exact .ed25519 w key signature
  | rsa _ key long signature => exact .rsa w key long signature
  | threshold parts assembled => exact .threshold parts assembled
  | timeout _ expiry => exact .timeout w expiry
  | withheld consistent => exact .withheld consistent

theorem WellFormed.assembled {w : Weight} {needed : UInt32} {subs : List Fulfillment}
    {selection : Selection} {c : Condition}
    (h : (Fulfillment.threshold w needed subs selection c).WellFormed) :
    Assembled needed subs selection c := by
  cases h with
  | threshold _ assembled => exact assembled

theorem WellFormed.parts {w : Weight} {needed : UInt32} {subs : List Fulfillment}
    {selection : Selection} {c : Condition}
    (h : (Fulfillment.threshold w needed subs selection c).WellFormed) :
    ∀ sub ∈ subs, sub.WellFormed := by
  cases h with
  | threshold parts _ => exact parts

theorem ofPrefix_eq_ok {lead : Bytes} {sub f : Fulfillment} :
    ofPrefix lead sub = .ok f ↔
      Wire.octetsLength lead.length + 2 + Wire.octetsLength sub.condition.size.toNat < 2 ^ 64 ∧
        f = prefixed Weight.one lead sub
          ⟨.prefixed, ConditionType.prefixed.features.union sub.condition.features,
            sha256 (lead ++ sub.condition.binary),
            UInt64.ofNat (Wire.octetsLength lead.length + 2 +
              Wire.octetsLength sub.condition.size.toNat)⟩ := by
  simp only [ofPrefix, bind_eq_ok, pure_eq_ok, Threshold.checkSize]
  constructor
  · rintro ⟨size, checked, rfl⟩
    split at checked
    · next fits =>
      cases checked
      exact ⟨fits, rfl⟩
    · cases checked
  · rintro ⟨fits, rfl⟩
    exact ⟨_, if_pos fits, rfl⟩

theorem checkShape_eq_ok {needed : UInt32} {count : Nat} :
    Threshold.checkShape needed count = .ok () ↔ needed ≠ 0 ∧ 0 < count ∧ count ≤ 32 := by
  unfold Threshold.checkShape Threshold.maxParts
  split
  · next zero => simp [zero]
  · next nonzero =>
    split
    · next none => simp [none]
    · next some =>
      split
      · next many => simp [Nat.not_le.2 many]
      · next few =>
        simp [nonzero]
        omega

theorem Assembled.few {needed : UInt32} {subs : List Fulfillment} {selection : Selection}
    {c : Condition} (h : Assembled needed subs selection c) : subs.length ≤ 32 :=
  (checkShape_eq_ok.1 h.shape).2.2

theorem simpleCondition_consistent (type : ConditionType) (hash : Octets 32) (size : Nat) :
    (simpleCondition type hash size).Consistent :=
  ⟨Features.contains_refl _, fun _ => rfl⟩

theorem WellFormed.condition {f : Fulfillment} (h : f.WellFormed) :
    f.condition.Consistent ∧ f.condition.type = f.type := by
  cases h with
  | preimage => exact ⟨simpleCondition_consistent _ _ _, rfl⟩
  | prefixed _ made =>
    obtain ⟨_, same⟩ := ofPrefix_eq_ok.1 made
    cases same
    exact ⟨⟨Features.contains_union _ _, nofun⟩, rfl⟩
  | ed25519 => exact ⟨simpleCondition_consistent _ _ _, rfl⟩
  | rsa => exact ⟨simpleCondition_consistent _ _ _, rfl⟩
  | threshold _ assembled =>
    obtain ⟨consistent, type, _⟩ := Threshold.condition_eq_ok assembled.condition_eq
    exact ⟨consistent, type⟩
  | timeout => exact ⟨simpleCondition_consistent _ _ _, rfl⟩
  | withheld consistent => exact ⟨consistent, rfl⟩

end CryptoConditions.Fulfillment
