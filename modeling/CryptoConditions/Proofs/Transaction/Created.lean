import CryptoConditions.Proofs.Document.Disclosed
import CryptoConditions.Proofs.Transaction.Saved
import CryptoConditions.Transaction.Draft

/-! Transactions that are created. Each has the id that it should have, one input for all owners,
and an output with a description of few levels; so it can be written and read back if what it
carries can, and it stays so when it is signed. -/

namespace CryptoConditions

open Json

theorem Draft.hasValidId_of_build {d : Draft} {now : Instant} {t : Transaction}
    (built : d.build now = .ok t) : t.hasValidId = true := by
  unfold build at built
  split at built
  · cases built
  · cases built
    -- The id itself does not count for the id.
    exact beq_self_eq_true _

section Depth

variable {f : Fulfillment}

theorem Fulfillment.depth_details_ofPublicKey {key : PublicKey}
    (made : Fulfillment.ofPublicKey key = .ok f) (weight : Option UInt32) :
    (f.details weight).toJson.depth = 1 := by
  rcases Transaction.ofPublicKey_eq_ok made with ⟨_, _, rfl⟩ | ⟨_, _, _, rfl⟩ <;>
    rw [Details.depth_toJson] <;> rfl

theorem Fulfillment.depth_details_ofOwners {owners : List PublicKey}
    (made : Fulfillment.ofOwners owners = .ok f) : (f.details none).toJson.depth ≤ 3 := by
  unfold ofOwners at made
  split at made
  · cases made
  · rw [depth_details_ofPublicKey made]
    decide
  · obtain ⟨subs, keys, made⟩ := bind_eq_ok.1 made
    obtain ⟨order, _, c, rfl, perm, _⟩ := ofThreshold_eq_ok made
    refine Details.depth_of_subs fun parts given d mem => ?_
    cases given
    rw [listDetails_eq_map] at mem
    obtain ⟨sub, inside, rfl⟩ := List.mem_map.1 mem
    obtain ⟨key, _, single⟩ := exists_of_mem_right (mapM_eq_ok keys) (perm.mem_iff.1 inside)
    exact (depth_details_ofPublicKey single _).le

end Depth

namespace Transaction

variable {owners : List PublicKey} {amount : UInt64} {asset : Json} {metadata : Option Json}
  {now : Instant} {t t' : Transaction}

theorem create_eq_ok (made : create owners amount asset metadata now = .ok t) :
    t.hasValidId = true ∧ ∃ id lock, Fulfillment.ofOwners owners = .ok lock ∧
      t = ⟨id, Draft.version, .create, asset, metadata, [.ofOwners owners none],
        [⟨amount, .ofFulfillment lock, owners.map PublicKey.base58⟩], now⟩ := by
  obtain ⟨output, locked, built⟩ := bind_eq_ok.1 made
  unfold Output.ofOwners at locked
  split at locked
  · cases locked
  · next lock known =>
    cases locked
    cases metadata <;>
    · refine ⟨Draft.hasValidId_of_build built, ?_⟩
      cases built
      exact ⟨_, lock, known, rfl⟩

theorem create_of_lock {lock : Fulfillment} (locked : Fulfillment.ofOwners owners = .ok lock) :
    ∃ t, create owners amount asset metadata now = .ok t := by
  rw [create, Output.ofOwners, locked]
  cases metadata <;> exact ⟨_, rfl⟩

theorem storable_of_create (made : create owners amount asset metadata now = .ok t)
    (asset_fits : asset.Fits Number.IsInteger (maxDepth - 1))
    (metadata_fits : ∀ value ∈ metadata, value.Fits Number.IsInteger (maxDepth - 1))
    (valid : now.Valid) : t.Storable := by
  obtain ⟨_, _, lock, locked, rfl⟩ := create_eq_ok made
  refine ⟨asset_fits, metadata_fits, fun o mem => ?_, valid⟩
  rw [List.mem_singleton.1 mem]
  have shallow := Fulfillment.depth_details_ofOwners locked
  exact (Nat.add_le_add_right shallow 4).trans (by decide)

theorem Storable.withoutNull (storable : t.Storable) : t.withoutNull.Storable :=
  ⟨storable.asset, fun value given => storable.metadata value (Option.mem_filter_iff.1 given).1,
    storable.details, storable.timestamp⟩

theorem SameDocument.storable (same : SameDocument t t') (storable : t.Storable) : t'.Storable where
  asset := same.asset ▸ storable.asset
  metadata := same.metadata ▸ storable.metadata
  details := same.outputs ▸ storable.details
  timestamp := same.timestamp ▸ storable.timestamp

end Transaction

end CryptoConditions
