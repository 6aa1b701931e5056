import CryptoConditions.Proofs.Fulfillment.RoundTrip
import CryptoConditions.Proofs.Threshold.Size
import Mathlib.Data.List.Forall2

/-! What a threshold is does not depend on how its parts are given: in which order, and
whether signed, shown or known by their conditions alone. Weights and conditions decide
whether it can be put together, what fault there is if not, and the condition if so. -/

namespace CryptoConditions.Fulfillment

theorem condition_arrange_congr (needed : UInt32) {parts others : List Fulfillment}
    (perm : (parts.map fun sub => sub.commitment.share).Perm
      (others.map fun sub => sub.commitment.share)) :
    Threshold.condition needed ((Threshold.arranged commitment parts).map commitment) =
      Threshold.condition needed ((Threshold.arranged commitment others).map commitment) := by
  have first := (Threshold.arranged_perm commitment parts).map fun sub => sub.commitment.share
  have second := (Threshold.arranged_perm commitment others).map fun sub => sub.commitment.share
  refine Threshold.condition_congr needed (Commitment.map_share_of_sorted ?_
    (Threshold.arranged_sorted _ _) (Threshold.arranged_sorted _ _))
  rw [List.map_map, List.map_map]
  exact (first.trans perm).trans second.symm

theorem map_condition_ofThreshold (needed : UInt32) (parts : List Fulfillment) :
    (ofThreshold needed parts).map condition =
      (Threshold.checkShape needed parts.length >>= fun _ => Threshold.condition needed
        ((Threshold.arranged commitment parts).map commitment)) := by
  rw [ofThreshold_eq]
  cases Threshold.checkShape needed parts.length with
  | error e => rfl
  | ok _ =>
    dsimp only [bind, Except.bind]
    cases Threshold.condition needed ((Threshold.arranged commitment parts).map commitment) with
    | error e => rfl
    | ok c => rfl

/-- Lists whose parts agree one by one in weight and condition, in some order, make thresholds of
one condition or fail with one fault. Where a size is found, no search for a payload through the
parts from the front holds more sums than the limit, so there is no fault of that kind. -/
theorem ofThreshold_of_paired {needed : UInt32} {parts others order : List Fulfillment}
    (perm : order.Perm others)
    (paired : List.Forall₂
      (fun f g : Fulfillment => f.weight = g.weight ∧ f.condition = g.condition) parts order) :
    (ofThreshold needed parts).map condition = (ofThreshold needed others).map condition ∧
      ∀ arranged selection c,
        ofThreshold needed parts = .ok (threshold Weight.one needed arranged selection c) →
        ∀ count, (Threshold.plans needed.toNat
          ((arranged.map fun sub => share sub.commitment sub).take count)).length ≤
            Threshold.maxSums := by
  have shares : (parts.map fun sub => sub.commitment.share) =
      order.map fun sub => sub.commitment.share := by
    clear perm
    induction paired with
    | nil => rfl
    | cons same _ ih =>
      rw [List.map_cons, List.map_cons, ih, share_commitment, share_commitment, same.1, same.2]
  constructor
  · have lengths : parts.length = others.length := by rw [paired.length_eq, perm.length_eq]
    rw [map_condition_ofThreshold, map_condition_ofThreshold, lengths,
      condition_arrange_congr needed (shares ▸ perm.map _)]
  · intro arranged selection c made count
    obtain ⟨_, _, _, same, _, assembled⟩ := ofThreshold_eq_ok made
    cases same
    obtain ⟨n, sized, _⟩ := Threshold.size_of_condition assembled.condition_eq
    have parts_eq : (arranged.map fun sub => share sub.commitment sub).map Threshold.Share.part =
        arranged.map commitment := by
      rw [List.map_map]
      rfl
    rw [← parts_eq] at sized
    exact Threshold.plans_length_le sized count

def sampleCounterparts : List Fulfillment :=
  [preimage Weight.one [], withheld (preimage sampleWeight [1]).commitment]

theorem ofThreshold_of_paired_sample :
    sampleCounterparts.reverse.Perm sampleCounterparts ∧
    List.Forall₂ (fun f g : Fulfillment => f.weight = g.weight ∧ f.condition = g.condition)
      sampleParts sampleCounterparts.reverse ∧
    (∃ c, (ofThreshold 2 sampleParts).map condition = .ok c) ∧
    (ofThreshold 2 sampleParts).map condition = (ofThreshold 2 sampleCounterparts).map condition ∧
      ∀ arranged selection c,
        ofThreshold 2 sampleParts = .ok (threshold Weight.one 2 arranged selection c) →
        ∀ count, (Threshold.plans (2 : UInt32).toNat
          ((arranged.map fun sub => share sub.commitment sub).take count)).length ≤
            Threshold.maxSums := by
  have perm : sampleCounterparts.reverse.Perm sampleCounterparts := List.reverse_perm _
  have paired : List.Forall₂
      (fun f g : Fulfillment => f.weight = g.weight ∧ f.condition = g.condition)
      sampleParts sampleCounterparts.reverse := .cons ⟨rfl, rfl⟩ (.cons ⟨rfl, rfl⟩ .nil)
  obtain ⟨c, made⟩ := ofThreshold_sampleParts
  exact ⟨perm, paired, ⟨c, by rw [made]; rfl⟩, ofThreshold_of_paired perm paired⟩

end CryptoConditions.Fulfillment
