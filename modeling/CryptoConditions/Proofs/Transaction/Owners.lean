import CryptoConditions.Proofs.Document.Disclosed
import CryptoConditions.Proofs.Key.Standard
import CryptoConditions.Proofs.Transaction.Locked
import CryptoConditions.Transaction.Draft

/-! Owners go by the texts of their keys. What they lock with may hold keys that the texts do not
name, but the public part of it is what the named keys lock with, and an output shows no more than
this part. So the named keys have the same outputs, and the same transactions. -/

namespace CryptoConditions

namespace Fulfillment

theorem ofThreshold_map_publicPart (needed : UInt32) {subs : List Fulfillment}
    (same : ∀ sub ∈ subs, sub.publicPart.commitment = sub.commitment) :
    ofThreshold needed (subs.map publicPart) = (ofThreshold needed subs).map publicPart := by
  have order := Threshold.arranged_perm commitment subs
  have moved : Threshold.arranged commitment (subs.map publicPart) =
      (Threshold.arranged commitment subs).map publicPart := by
    rw [Threshold.arranged_map, Threshold.arranged_congr (commitment ∘ publicPart) same]
  have commitments : ((Threshold.arranged commitment subs).map publicPart).map commitment =
      (Threshold.arranged commitment subs).map commitment := by
    rw [List.map_map]
    exact List.map_congr_left fun sub mem => same sub (order.mem_iff.1 mem)
  rw [ofThreshold_eq, ofThreshold_eq, moved, List.length_map]
  cases Threshold.checkShape needed subs.length with
  | error e => rfl
  | ok _ =>
    dsimp only [bind, Except.bind]
    rw [commitments]
    cases Threshold.condition needed ((Threshold.arranged commitment subs).map commitment) with
    | error e => rfl
    | ok c =>
      rw [← publicParts_eq_map]
      rfl

theorem ofPublicKey_toStandard (key : PublicKey) :
    ofPublicKey key.toStandard = (ofPublicKey key).map publicPart := by
  cases key with
  | ed25519 key => rfl
  | rsa key =>
    rw [PublicKey.toStandard, ofPublicKey, ofPublicKey, ofRsa, ofRsa]
    dsimp only
    split <;> rfl

theorem commitment_publicPart_of_ofPublicKey {key : PublicKey} {f : Fulfillment}
    (made : ofPublicKey key = .ok f) : f.publicPart.commitment = f.commitment := by
  rcases Transaction.ofPublicKey_eq_ok made with ⟨_, _, rfl⟩ | ⟨_, _, _, rfl⟩ <;> rfl

theorem mapM_ofPublicKey_toStandard (keys : List PublicKey) :
    (keys.map PublicKey.toStandard).mapM ofPublicKey =
      (keys.mapM ofPublicKey).map (List.map publicPart) := by
  induction keys with
  | nil => rfl
  | cons key keys ih =>
    rw [List.map_cons, List.mapM_cons, List.mapM_cons, ofPublicKey_toStandard, ih]
    cases ofPublicKey key with
    | error e => rfl
    | ok f => cases keys.mapM ofPublicKey <;> rfl

theorem ofOwners_toStandard (keys : List PublicKey) :
    ofOwners (keys.map PublicKey.toStandard) = (ofOwners keys).map publicPart := by
  match keys with
  | [] => rfl
  | [key] => exact ofPublicKey_toStandard key
  | first :: second :: keys =>
    have several : 2 ≤ (first :: second :: keys).length := Nat.le_add_left 2 _
    rw [ofOwners_eq_bind several, ofOwners_eq_bind (by rwa [List.length_map]),
      mapM_ofPublicKey_toStandard, List.length_map]
    cases made : (first :: second :: keys).mapM ofPublicKey with
    | error e => rfl
    | ok subs =>
      exact ofThreshold_map_publicPart _
        (Transaction.forall_of_mapM (fun _ _ => commitment_publicPart_of_ofPublicKey) made)

theorem WellFormed.type_publicPart {f : Fulfillment} (h : f.WellFormed) :
    f.publicPart.type = f.type := by
  cases f with
  | prefixed => exact h.condition.2
  | _ => rfl

end Fulfillment

theorem ConditionDocument.ofFulfillment_publicPart (f : Fulfillment) :
    ofFulfillment f.publicPart = ofFulfillment f := by
  rw [ofFulfillment, ofFulfillment, Fulfillment.details_publicPart,
    Fulfillment.condition_publicPart]

theorem PublicKey.map_base58_toStandard (keys : List PublicKey) :
    (keys.map toStandard).map base58 = keys.map base58 := by
  rw [List.map_map]
  exact List.map_congr_left fun key _ => base58_toStandard key

theorem Output.ofOwners_toStandard (amount : UInt64) (keys : List PublicKey) :
    ofOwners amount (keys.map PublicKey.toStandard) = ofOwners amount keys := by
  rw [ofOwners, ofOwners, Fulfillment.ofOwners_toStandard, PublicKey.map_base58_toStandard]
  cases Fulfillment.ofOwners keys with
  | error e => rfl
  | ok f =>
    have document := ConditionDocument.ofFulfillment_publicPart f
    simp only [Except.map, document]

theorem Input.ofOwners_toStandard (keys : List PublicKey) (spends : Option OutputLink) :
    ofOwners (keys.map PublicKey.toStandard) spends = ofOwners keys spends := by
  rw [ofOwners, ofOwners, PublicKey.map_base58_toStandard]

theorem Transaction.create_toStandard (keys : List PublicKey) (amount : UInt64) (asset : Json)
    (metadata : Option Json) (timestamp : Instant) :
    create (keys.map PublicKey.toStandard) amount asset metadata timestamp =
      create keys amount asset metadata timestamp := by
  rw [create, create, Output.ofOwners_toStandard, Input.ofOwners_toStandard]

end CryptoConditions
