import CryptoConditions.Fulfillment.Validation
import CryptoConditions.Proofs.Wire.Sequence

/-! Messages in segments. A threshold hands one segment to each part that can be revealed, in the
order of the parts. Whether a message is so many segments is told by its bytes alone, whichever
parts hold; and where all segments are one message, the threshold holds for them as it does for
the message. -/

namespace CryptoConditions.Fulfillment

def live (subs : List Fulfillment) : List Fulfillment :=
  subs.filter canReveal

def heldWeight (parts : List (Fulfillment × Bytes)) : Nat :=
  ((parts.filter fun part => part.1.validate part.2).map fun part => part.1.weight.toNat).sum

/-- A message that is so many segments one after the other, with nothing behind them. -/
structure Segmented (count : Nat) (segments : List Bytes) (message : Bytes) : Prop where
  length_eq : segments.length = count
  small : ∀ segment ∈ segments, segment.length < 2 ^ 64
  message_eq : message = segments.flatMap Wire.octets

section Live

variable {sub : Fulfillment}

theorem live_cons_of_canReveal (can : sub.canReveal = true) (subs : List Fulfillment) :
    live (sub :: subs) = sub :: live subs :=
  List.filter_cons_of_pos can

theorem live_cons_of_not_canReveal (cannot : ¬ sub.canReveal = true) (subs : List Fulfillment) :
    live (sub :: subs) = live subs :=
  List.filter_cons_of_neg cannot

theorem heldWeight_cons (sub : Fulfillment) (message : Bytes)
    (parts : List (Fulfillment × Bytes)) :
    heldWeight ((sub, message) :: parts) =
      (if sub.validate message then sub.weight.toNat else 0) + heldWeight parts := by
  rw [heldWeight, heldWeight]
  by_cases holds : sub.validate message = true
  · rw [if_pos holds, List.filter_cons, if_pos holds, List.map_cons, List.sum_cons]
  · rw [if_neg holds, List.filter_cons, if_neg holds, Nat.zero_add]

theorem heldWeight_replicate (subs : List Fulfillment) (message : Bytes) :
    heldWeight ((live subs).zip (List.replicate (live subs).length message)) =
      validWeight subs message := by
  induction subs with
  | nil => rfl
  | cons sub subs ih =>
    rw [validWeight]
    by_cases can : sub.canReveal = true
    · rw [live_cons_of_canReveal can, List.length_cons, List.replicate_succ, List.zip_cons_cons,
        heldWeight_cons, ih, can, Bool.true_and]
    · rw [live_cons_of_not_canReveal can, ih, Bool.eq_false_of_not_eq_true can, Bool.false_and,
        if_neg Bool.false_ne_true, Nat.zero_add]

end Live

section Cut

variable {subs : List Fulfillment} {message : Bytes} {segments : List Bytes}

theorem Segmented.nil_iff : Segmented 0 segments message ↔ segments = [] ∧ message = [] := by
  constructor
  · rintro ⟨none, _, rfl⟩
    obtain rfl := List.eq_nil_of_length_eq_zero none
    exact ⟨rfl, rfl⟩
  · rintro ⟨rfl, rfl⟩
    exact ⟨rfl, nofun, rfl⟩

theorem Segmented.succ_iff {count : Nat} : Segmented (count + 1) segments message ↔
    ∃ segment others rest, segments = segment :: others ∧
      Wire.Reader.octets message = (.ok segment, rest) ∧ Segmented count others rest := by
  constructor
  · rintro ⟨length, small, rfl⟩
    obtain ⟨segment, others, rfl⟩ := List.exists_cons_of_length_eq_add_one length
    rw [List.forall_mem_cons] at small
    exact ⟨segment, others, _, rfl, Wire.Reader.octets_octets small.1 _,
      Nat.succ.inj length, small.2, rfl⟩
  · rintro ⟨segment, others, rest, rfl, read, length, small, rfl⟩
    obtain ⟨fits, rfl⟩ := Wire.Reader.octets_eq_ok_iff.1 read
    exact ⟨congrArg Nat.succ length, List.forall_mem_cons.2 ⟨fits, small⟩, rfl⟩

theorem segmentsWeight?_eq_some_iff {weight : Nat} : segmentsWeight? subs message = some weight ↔
    ∃ segments, Segmented (live subs).length segments message ∧
      weight = heldWeight ((live subs).zip segments) := by
  induction subs generalizing message weight with
  | nil =>
    rw [segmentsWeight?]
    constructor
    · intro found
      split at found
      · next empty =>
        cases found
        exact ⟨[], Segmented.nil_iff.2 ⟨rfl, List.isEmpty_iff.1 empty⟩, rfl⟩
      · cases found
    · rintro ⟨segments, cut, rfl⟩
      obtain ⟨rfl, rfl⟩ := Segmented.nil_iff.1 cut
      rfl
  | cons sub subs ih =>
    rw [segmentsWeight?]
    -- A part that cannot be revealed takes no segment.
    by_cases can : sub.canReveal = true
    · rw [if_pos can, live_cons_of_canReveal can, List.length_cons]
      constructor
      · intro found
        split at found
        · cases found
        · next segment rest read =>
          obtain ⟨others, known, rfl⟩ := Option.map_eq_some_iff.1 found
          obtain ⟨segments, cut, rfl⟩ := ih.1 known
          exact ⟨segment :: segments, Segmented.succ_iff.2 ⟨_, _, _, rfl, read, cut⟩,
            (heldWeight_cons _ _ _).symm⟩
      · rintro ⟨_, cut, rfl⟩
        obtain ⟨segment, segments, rest, rfl, read, others⟩ := Segmented.succ_iff.1 cut
        rw [read]
        dsimp only
        rw [ih.2 ⟨segments, others, rfl⟩, List.zip_cons_cons, heldWeight_cons]
        rfl
    · rw [if_neg can, live_cons_of_not_canReveal can]
      exact ih

theorem segmented_replicate {segment : Bytes} (small : segment.length < 2 ^ 64) (count : Nat) :
    Segmented count (List.replicate count segment)
      ((List.replicate count segment).flatMap Wire.octets) where
  length_eq := List.length_replicate
  small := fun other mem => by rw [List.eq_of_mem_replicate mem]; exact small
  message_eq := rfl

end Cut

/-- A threshold holds for a message in segments just where the message is one segment for each part
that can be revealed, and the parts that hold for theirs have enough weight. So it holds for copies
of a message as it does for the message. -/
theorem validateSegments_iff_segmented (w : Weight) (needed : UInt32) (subs : List Fulfillment)
    (selection : Selection) (c : Condition) :
    (∀ message, validateSegments needed subs message = true ↔
      ∃ segments, Segmented (live subs).length segments message ∧
        needed.toNat ≤ heldWeight ((live subs).zip segments)) ∧
    ∀ message : Bytes, message.length < 2 ^ 64 →
      validateSegments needed subs
          ((List.replicate (live subs).length message).flatMap Wire.octets) =
        (threshold w needed subs selection c).validate message := by
  constructor
  · intro message
    rw [validateSegments, Option.any_eq_true]
    constructor
    · rintro ⟨weight, found, enough⟩
      obtain ⟨segments, cut, rfl⟩ := segmentsWeight?_eq_some_iff.1 found
      exact ⟨segments, cut, of_decide_eq_true enough⟩
    · rintro ⟨segments, cut, enough⟩
      exact ⟨_, segmentsWeight?_eq_some_iff.2 ⟨segments, cut, rfl⟩, decide_eq_true enough⟩
  · intro message small
    have found := segmentsWeight?_eq_some_iff.2
      ⟨_, segmented_replicate small (live subs).length, rfl⟩
    rw [heldWeight_replicate] at found
    rw [validateSegments, found, validate]
    rfl

def sampleTimes : List Fulfillment :=
  [timeout ⟨3, by decide⟩ 9, withheld (preimage Weight.one []).commitment, timeout Weight.one 3]

theorem validateSegments_iff_segmented_sample :
    (∃ segments, Segmented (live sampleTimes).length segments [1, 53, 1, 53] ∧
      (2 : UInt32).toNat ≤ heldWeight ((live sampleTimes).zip segments)) ∧
    ([53] : Bytes).length < 2 ^ 64 ∧
    validateSegments 2 sampleTimes
        ((List.replicate (live sampleTimes).length [53]).flatMap Wire.octets) =
      (threshold Weight.one 2 sampleTimes (.unsatisfied 0)
        (preimage Weight.one []).condition).validate [53] := by
  obtain ⟨iff, same⟩ := validateSegments_iff_segmented Weight.one 2 sampleTimes (.unsatisfied 0)
    (preimage Weight.one []).condition
  exact ⟨(iff [1, 53, 1, 53]).1 (by decide +kernel), by decide, same [53] (by decide)⟩

end CryptoConditions.Fulfillment
