import CryptoConditions.Fulfillment.Validation
import CryptoConditions.Proofs.Fulfillment.Canonical
import CryptoConditions.Proofs.Fulfillment.Minimal

/-! A threshold that was received, put together again from its parts. The parts stand in order
already, so the condition is the one it had; and what its sender revealed is a choice with enough
weight and a payload that is not too long, so the search finds one that is no longer. -/

namespace CryptoConditions.Fulfillment

variable {needed : UInt32} {subs : List Fulfillment} {flags : List Bool} {c : Condition}

theorem Assembled.reassembled (h : Assembled needed subs (.revealed flags) c) {shown : Bytes}
    (paid : payloadShowing needed subs flags = .ok shown) :
    ∃ best less,
      ofThreshold needed subs = .ok (threshold Weight.one needed subs (.revealed best) c) ∧
      payloadShowing needed subs best = .ok less ∧ less.length ≤ shown.length := by
  have made := ofThreshold_of_sorted h.shape h.sorted h.condition_eq
  obtain ⟨length, weight, choice, enough, total, fits⟩ := (h.revealing flags rfl).choice paid
  rw [total] at fits ⊢
  obtain ⟨best, less, selected, shows, le⟩ := select_shows choice enough fits
  rw [selected] at made
  exact ⟨best, less, made, shows, le⟩

/-- The parts of a threshold that was received make a threshold again. It has the same condition,
holds for the same messages, whether one for all parts or one for each, and can be revealed in a
payload that is no longer than the one received; and its own parts make it once more. -/
theorem reassembled_of_payload {levels : Nat} {payload : Bytes} {t : Fulfillment}
    (read : ofThresholdPayload (ofPayload levels) payload = .ok t) :
    ∃ needed subs flags c again, t = threshold Weight.one needed subs (.revealed flags) c ∧
      ofThreshold needed subs = .ok again ∧ again.condition = t.condition ∧
      (∀ message, again.validate message = t.validate message) ∧ again.canReveal = true ∧
      (∃ shown, again.payload = .ok shown ∧ shown.length ≤ payload.length) ∧
      ∃ order best c', again = threshold Weight.one needed order (.revealed best) c' ∧
        (∀ message, validateSegments needed order message =
          validateSegments needed subs message) ∧
        ofThreshold needed order = .ok again := by
  have root : ofPayload (levels + 1) ConditionType.threshold.id payload = .ok t := by
    rw [ofPayload_succ]
    exact read
  have kept := ofPayload_faithful _ _ _ _ root
  obtain ⟨needed, _, list, _, _, _, made⟩ := ofThresholdPayload_ok read
  obtain ⟨order, c, rfl, _⟩ := ofEntries_eq_ok made
  obtain ⟨shown, paid, length⟩ := kept.again
  rw [payload_revealed] at paid
  cases kept.wellFormed with
  | threshold _ assembled =>
    obtain ⟨best, less, again, shows, le⟩ := assembled.reassembled paid
    refine ⟨_, _, _, _, _, rfl, again, rfl, fun message => ?_, rfl,
      ⟨less, by rw [payload_revealed, shows], by omega⟩, _, _, _, rfl, fun _ => rfl, again⟩
    -- What is revealed has no part in validation.
    simp only [validate]

theorem reassembled_of_payload_sample : ∃ (payload : Bytes) (t : Fulfillment),
    ofThresholdPayload (ofPayload maxNesting) payload = .ok t ∧
    ∃ needed subs flags c again, t = threshold Weight.one needed subs (.revealed flags) c ∧
      ofThreshold needed subs = .ok again ∧ again.condition = t.condition ∧
      (∀ message, again.validate message = t.validate message) ∧ again.canReveal = true ∧
      (∃ shown, again.payload = .ok shown ∧ shown.length ≤ payload.length) ∧
      ∃ order best c', again = threshold Weight.one needed order (.revealed best) c' ∧
        (∀ message, validateSegments needed order message =
          validateSegments needed subs message) ∧
        ofThreshold needed order = .ok again := by
  obtain ⟨c, read⟩ := ofThresholdPayload_sampleEntries
  exact ⟨_, _, read, reassembled_of_payload read⟩

end CryptoConditions.Fulfillment
