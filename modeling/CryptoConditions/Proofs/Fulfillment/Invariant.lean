import CryptoConditions.Proofs.Fulfillment.Levels
import CryptoConditions.Proofs.Fulfillment.Minimal

/-! The invariant of thresholds. However deep a threshold stands in a fulfillment, and whether
the flags of its parts were searched for here or came with the bytes, it has the shape, the
order and the condition that its parts give it, and shows no more than can be written. So a
fulfillment is said to be revealed exactly where all of its written forms exist. -/

namespace CryptoConditions.Fulfillment

structure ThresholdInvariant (w : Weight) (needed : UInt32) (subs : List Fulfillment)
    (selection : Selection) (c : Condition) : Prop where
  nonempty : 1 ≤ subs.length
  few : subs.length ≤ Threshold.maxParts
  needed_pos : 1 ≤ needed.toNat
  weights_pos : ∀ sub ∈ subs, 1 ≤ sub.weight.toNat
  sorted : subs.Pairwise fun a b => b.weight.toNat < a.weight.toNat ∨
    a.weight = b.weight ∧ a.condition.binary ≤ b.condition.binary
  recomputed : Threshold.condition needed (subs.map commitment) = .ok c
  revealing : (threshold w needed subs selection c).canReveal = true →
    ∃ flags shown, selection = .revealed flags ∧ flags.length = subs.length ∧
      (∀ sub, (sub, true) ∈ subs.zip flags → sub.canReveal = true) ∧
      needed.toNat ≤ revealedWeight (subs.zip flags) ∧
      (threshold w needed subs selection c).payload = .ok shown ∧
      shown.length ≤ Threshold.maxPayload

theorem selection_of_canReveal {w : Weight} {needed : UInt32} {subs : List Fulfillment}
    {selection : Selection} {c : Condition}
    (can : (threshold w needed subs selection c).canReveal = true) :
    ∃ flags, selection = .revealed flags := by
  cases selection with
  | revealed flags => exact ⟨flags, rfl⟩
  | _ => cases can

theorem sorted_of_precedes {subs : List Fulfillment}
    (sorted : (subs.map commitment).Pairwise fun a b => a.precedes b = true) :
    subs.Pairwise fun a b => b.weight.toNat < a.weight.toNat ∨
      a.weight = b.weight ∧ a.condition.binary ≤ b.condition.binary := by
  refine (List.pairwise_map.1 sorted).imp fun {a b} before => ?_
  rcases Commitment.precedes_iff.1 before with heavier | ⟨weights, le⟩
  · exact Or.inl (UInt32.lt_iff_toNat_lt.1 heavier)
  · exact Or.inr ⟨Weight.toNat_injective (congrArg UInt32.toNat weights), le⟩

theorem Assembled.invariant {needed : UInt32} {subs : List Fulfillment} {selection : Selection}
    {c : Condition} (h : Assembled needed subs selection c)
    (parts : ∀ sub ∈ subs, sub.WellFormed) (w : Weight) :
    ThresholdInvariant w needed subs selection c := by
  obtain ⟨nonzero, nonempty, few⟩ := checkShape_eq_ok.1 h.shape
  refine ⟨nonempty, few, ?_, fun sub _ => ?_, sorted_of_precedes h.sorted, h.condition_eq, ?_⟩
  · exact Nat.pos_of_ne_zero fun zero => nonzero (UInt32.toNat_inj.1 zero)
  · exact UInt32.lt_iff_toNat_lt.1 sub.weight.pos
  · intro can
    obtain ⟨flags, rfl⟩ := selection_of_canReveal can
    obtain ⟨long, enough, shown, written, fits⟩ := h.revealing flags rfl
    refine ⟨flags, Threshold.header needed subs.length ++ shown, rfl, long, ?_, enough,
      payload_revealed_eq_ok.2 ⟨shown, written, rfl⟩, h.length_le written⟩
    intro sub mem
    exact (parts sub (List.of_mem_zip mem).1).canReveal_iff.2 (payload_of_entries written mem)

theorem Nests.wellFormed {f g : Fulfillment} {depth : Nat} (nests : f.Nests depth g)
    (wellFormed : f.WellFormed) : g.WellFormed := by
  induction nests with
  | root => exact wellFormed
  | prefixed _ ih =>
    cases wellFormed with
    | prefixed part _ => exact ih part
  | part mem _ ih =>
    cases wellFormed with
    | threshold parts _ => exact ih (parts _ mem)

theorem binary_iff_payload {f : Fulfillment} :
    (∃ bytes, f.binary = .ok bytes) ↔ ∃ shown, f.payload = .ok shown := by
  constructor
  · rintro ⟨_, written⟩
    obtain ⟨shown, paid, _⟩ := binary_eq_ok.1 written
    exact ⟨shown, paid⟩
  · rintro ⟨shown, paid⟩
    exact ⟨_, binary_eq_ok.2 ⟨shown, paid, rfl⟩⟩

theorem uri_iff_payload {f : Fulfillment} :
    (∃ text, f.uri = .ok text) ↔ ∃ shown, f.payload = .ok shown := by
  simp only [uri, bind_eq_ok, pure_eq_ok]
  constructor
  · rintro ⟨_, shown, paid, _⟩
    exact ⟨shown, paid⟩
  · rintro ⟨shown, paid⟩
    exact ⟨_, shown, paid, rfl⟩

/-- Every threshold in what is put together or read keeps the invariant, and what is said to be
revealed is what can be written in all forms. -/
theorem invariant_of_obtained {f g : Fulfillment} {depth : Nat} (obtained : f.Obtained)
    (nests : f.Nests depth g) :
    (∀ w needed subs selection c, g = threshold w needed subs selection c →
        ThresholdInvariant w needed subs selection c) ∧
      (g.canReveal = true ↔ (∃ shown, g.payload = .ok shown) ∧ (∃ bytes, g.binary = .ok bytes) ∧
        ∃ text, g.uri = .ok text) := by
  have wellFormed := nests.wellFormed obtained.wellFormed
  constructor
  · rintro w needed subs selection c rfl
    cases wellFormed with
    | threshold parts assembled => exact assembled.invariant parts w
  · rw [binary_iff_payload, uri_iff_payload, and_self_iff, and_self_iff]
    exact wellFormed.canReveal_iff

def samplePrefixed (c outer : Condition) : Fulfillment :=
  prefixed Weight.one [7] (threshold Weight.one 2 sampleParts (.revealed [true, false]) c) outer

theorem obtained_samplePrefixed : ∃ c outer : Condition,
    (samplePrefixed c outer).Obtained ∧ outer.size = 62 := by
  obtain ⟨c, made⟩ := ofThreshold_sampleParts
  obtain ⟨_, _, _, same, _, assembled⟩ := ofThreshold_eq_ok made
  cases same
  obtain ⟨n, sized, declared⟩ := Threshold.size_of_condition assembled.condition_eq
  have found : Threshold.size 2 (sampleParts.map commitment) = .ok 57 := by decide +kernel
  obtain rfl : 57 = n := Except.ok.inj (found.symm.trans sized)
  have length : Wire.octetsLength ([7] : Bytes).length + 2 + Wire.octetsLength c.size.toNat =
      62 := by
    rw [declared]
    decide
  have behind := @ofPrefix_eq_ok [7]
    (threshold Weight.one 2 sampleParts (.revealed [true, false]) c) _ |>.2
      ⟨by rw [condition, length]; decide, rfl⟩
  refine ⟨c, _, Built.prefixed (Built.threshold built_sampleParts made) behind, ?_⟩
  rw [condition, length]
  rfl

theorem invariant_of_obtained_sample : ∃ f g : Fulfillment, f.Obtained ∧ f.Nests 1 g ∧
    (∃ c, g = threshold Weight.one 2 sampleParts (.revealed [true, false]) c) ∧
    (∀ w needed subs selection c, g = threshold w needed subs selection c →
        ThresholdInvariant w needed subs selection c) ∧
      (g.canReveal = true ↔ (∃ shown, g.payload = .ok shown) ∧ (∃ bytes, g.binary = .ok bytes) ∧
        ∃ text, g.uri = .ok text) := by
  obtain ⟨c, outer, obtained, _⟩ := obtained_samplePrefixed
  have nests : (samplePrefixed c outer).Nests 1 _ := .prefixed (.root _)
  exact ⟨_, _, obtained, nests, ⟨c, rfl⟩, invariant_of_obtained obtained nests⟩

end CryptoConditions.Fulfillment
