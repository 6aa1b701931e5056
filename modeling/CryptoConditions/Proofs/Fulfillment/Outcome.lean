import CryptoConditions.Proofs.Fulfillment.ByteSearch
import CryptoConditions.Proofs.Fulfillment.Identity

/-! When a threshold can be put together. As long as no size overflows, the weights of the parts
decide: there is a threshold unless it is zero, has no parts or too many, can reach too many sums,
or has not enough weight, and the first of these is the fault. The search for a payload, which
comes last, adds no fault of its own. -/

namespace CryptoConditions

namespace Threshold

variable {needed : Nat} {parts : List Commitment}

theorem mapM_extent_cases (parts : List Commitment) :
    parts.mapM extent = .ok (parts.map fullExtent) ∨ parts.mapM extent = .error .sizeOverflow := by
  have each (part : Commitment) : extent part = .ok (fullExtent part) ∨
      extent part = .error .sizeOverflow := by
    rw [extent, checkSize]
    split
    · exact Or.inl rfl
    · exact Or.inr rfl
  induction parts with
  | nil => exact Or.inl rfl
  | cons part parts ih =>
    rw [List.mapM_cons]
    rcases each part with extended | overflow
    · rw [bind_of_ok extended]
      rcases ih with others | overflow
      · exact Or.inl (bind_of_ok others _)
      · exact Or.inr (bind_of_error overflow _)
    · exact Or.inr (bind_of_error overflow _)

/-- Whether so many sums can be gone through, and whether all weights together suffice. -/
def reachable (needed : Nat) (weights : List Nat) : Except ConditionError Unit :=
  if maxSums < (cappedSums needed weights).card then .error (.fulfillment (.tooManySums maxSums))
  else if weights.sum < needed then .error (.insufficientThreshold needed weights.sum)
  else .ok ()

theorem reachable_perm {weights others : List Nat} (perm : weights.Perm others) :
    reachable needed weights = reachable needed others := by
  rw [reachable, reachable, cappedSums_perm perm, perm.sum_nat]

theorem map_size {needed : UInt32} (fits : size needed parts ≠ .error .sizeOverflow) :
    (size needed parts).map (fun _ => ()) =
      reachable needed.toNat (parts.map fun part => part.weight.toNat) := by
  have weights : (parts.map fullExtent).map Extent.weight =
      parts.map fun part => part.weight.toNat := by
    rw [List.map_map]
    rfl
  rcases mapM_extent_cases parts with extended | overflow
  · rw [size, bind_of_ok extended] at fits ⊢
    have quiet : largest? needed.toNat (parts.map fullExtent) ≠ .error .sizeOverflow :=
      fun overflow => fits (bind_of_error overflow _)
    have searched := largest?_eq quiet
    rw [weights] at searched
    rw [reachable]
    split at searched
    · next many => rw [if_pos many, bind_of_error searched, Except.map]
    · next few =>
      rw [if_neg few, bind_of_ok searched]
      rw [bind_of_ok searched] at fits
      cases found : (greatest needed.toNat (parts.map fullExtent)).lookup needed.toNat with
      | none =>
        have short := lookup_greatest_eq_none.1 found
        rw [weights] at short
        rw [if_pos short]
        rfl
      | some body =>
        have enough : ¬ ((parts.map fullExtent).map Extent.weight).sum < needed.toNat := by
          rw [← lookup_greatest_eq_none, found]
          simp
        rw [weights] at enough
        rw [if_neg enough]
        simp only [found, checkSize] at fits ⊢
        split at fits
        · next small => rw [if_pos small, Except.map]
        · exact absurd rfl fits
  · exact absurd (bind_of_error overflow _) fits

theorem map_condition {needed : UInt32} (fits : condition needed parts ≠ .error .sizeOverflow) :
    (condition needed parts).map (fun _ => ()) =
      reachable needed.toNat (parts.map fun part => part.weight.toNat) := by
  have quiet : size needed parts ≠ .error .sizeOverflow :=
    fun overflow => fits (bind_of_error overflow _)
  rw [← map_size quiet, condition]
  cases size needed parts with
  | error e => rfl
  | ok n => rfl

end Threshold

namespace Fulfillment

open Threshold (cappedSums maxParts maxSums)

/-- Whether parts of these weights make a threshold, and the fault if not. -/
def admission (needed : UInt32) (weights : List Nat) : Except ConditionError Unit :=
  if needed = 0 then .error (.fulfillment .zeroThreshold)
  else if weights = [] then .error (.fulfillment .noSubfulfillments)
  else if maxParts < weights.length then .error (.tooManySubfulfillments weights.length)
  else if maxSums < (cappedSums needed.toNat weights).card then
    .error (.fulfillment (.tooManySums maxSums))
  else if weights.sum < needed.toNat then .error (.insufficientThreshold needed.toNat weights.sum)
  else .ok ()

theorem admission_eq (needed : UInt32) (weights : List Nat) :
    admission needed weights =
      (Threshold.checkShape needed weights.length >>= fun _ =>
        Threshold.reachable needed.toNat weights) := by
  unfold admission Threshold.checkShape
  simp only [List.length_eq_zero_iff]
  split
  · rfl
  · split
    · rfl
    · split
      · rfl
      · rfl

variable {needed : UInt32} {subs : List Fulfillment}

theorem weights_arrange (subs : List Fulfillment) :
    (((Threshold.arranged commitment subs).map commitment).map
      fun part => part.weight.toNat).Perm (subs.map fun sub => sub.weight.toNat) := by
  rw [List.map_map]
  exact (Threshold.arranged_perm commitment subs).map _

theorem map_unit_ofThreshold (fits : ofThreshold needed subs ≠ .error .sizeOverflow) :
    (ofThreshold needed subs).map (fun _ => ()) =
      admission needed (subs.map fun sub => sub.weight.toNat) := by
  have conditions := map_condition_ofThreshold needed subs
  have forget : (ofThreshold needed subs).map (fun _ => ()) =
      ((ofThreshold needed subs).map condition).map fun _ => () := by
    cases ofThreshold needed subs <;> rfl
  have quiet : (ofThreshold needed subs).map condition ≠ .error .sizeOverflow := by
    cases made : ofThreshold needed subs with
    | error e =>
      intro overflow
      cases overflow
      exact fits made
    | ok f => simp [Except.map]
  rw [forget, admission_eq, List.length_map]
  rw [conditions] at quiet ⊢
  cases shape : Threshold.checkShape needed subs.length with
  | error e => rfl
  | ok _ =>
    rw [bind_of_ok shape] at quiet
    exact (Threshold.map_condition quiet).trans (Threshold.reachable_perm (weights_arrange subs))

theorem few_of_ofThreshold {f : Fulfillment} (made : ofThreshold needed subs = .ok f) :
    (cappedSums needed.toNat (subs.map fun sub => sub.weight.toNat)).card ≤ maxSums := by
  have outcome := map_unit_ofThreshold (by rw [made]; simp)
  rw [made, admission_eq] at outcome
  obtain ⟨_, _, ok⟩ := bind_eq_ok.1 outcome.symm
  unfold Threshold.reachable at ok
  split at ok
  · cases ok
  · next few => exact Nat.le_of_not_lt few

/-- Where no size overflows, whether a threshold can be put together, and the fault if not, is a
matter of the weights; the search for a payload, which has a limit of its own, then ends without a
fault; and parts of the same weights and conditions, in any order and whatever can be revealed of
them, have the same outcome. -/
theorem outcome_of_ofThreshold (obtained : ∀ sub ∈ subs, sub.Obtained)
    (fits : ofThreshold needed subs ≠ .error .sizeOverflow) :
    (ofThreshold needed subs).map (fun _ => ()) =
        admission needed (subs.map fun sub => sub.weight.toNat) ∧
      (∀ f, ofThreshold needed subs = .ok f → ∃ order selection c,
        f = threshold Weight.one needed order selection c ∧ order.Perm subs ∧
          selectBytes needed order = .ok selection) ∧
      ∀ others : List Fulfillment,
        (others.map fun sub => (sub.weight, sub.condition)).Perm
          (subs.map fun sub => (sub.weight, sub.condition)) →
        (ofThreshold needed others).map condition = (ofThreshold needed subs).map condition := by
  refine ⟨map_unit_ofThreshold fits, ?_, ?_⟩
  · intro f made
    obtain ⟨order, selection, c, rfl, perm, _⟩ := ofThreshold_eq_ok made
    refine ⟨order, selection, c, rfl, perm, ?_⟩
    have few := few_of_ofThreshold made
    rw [← Threshold.cappedSums_perm (perm.map _)] at few
    rw [selection_of_ofThreshold made]
    exact selectBytes_eq (fun sub mem => (obtained sub (perm.mem_iff.1 mem)).wellFormed) few
  · intro others perm
    have lengths : others.length = subs.length := by
      simpa only [List.length_map] using perm.length_eq
    rw [map_condition_ofThreshold, map_condition_ofThreshold, lengths,
      condition_arrange_congr needed perm]

theorem outcome_of_ofThreshold_sample : (∀ sub ∈ sampleParts, sub.Obtained) ∧
    ofThreshold 2 sampleParts ≠ .error .sizeOverflow ∧
    (ofThreshold 2 sampleParts).map (fun _ => ()) =
        admission 2 (sampleParts.map fun sub => sub.weight.toNat) ∧
      (∀ f, ofThreshold 2 sampleParts = .ok f → ∃ order selection c,
        f = threshold Weight.one 2 order selection c ∧ order.Perm sampleParts ∧
          selectBytes 2 order = .ok selection) ∧
      ∀ others : List Fulfillment,
        (others.map fun sub => (sub.weight, sub.condition)).Perm
          (sampleParts.map fun sub => (sub.weight, sub.condition)) →
        (ofThreshold 2 others).map condition = (ofThreshold 2 sampleParts).map condition := by
  obtain ⟨c, made⟩ := ofThreshold_sampleParts
  have fits : ofThreshold 2 sampleParts ≠ .error .sizeOverflow := by
    rw [made]
    simp
  exact ⟨built_sampleParts, fits, outcome_of_ofThreshold built_sampleParts fits⟩

end Fulfillment

end CryptoConditions
