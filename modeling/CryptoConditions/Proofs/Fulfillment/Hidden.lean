import CryptoConditions.Proofs.Fulfillment.Layout

/-! Hidden conditions. Their sizes are only declared: nothing in the bytes of a fulfillment bears
them out. A payload is modest where no condition that it hides, at whatever level, declares an
enormous size. -/

namespace CryptoConditions.Fulfillment

/-- Conditions that the payload of a type hides. The payload need not be one that can be read:
what counts is how far the entries go. -/
inductive Hides : ConditionType → Bytes → Condition → Prop where
  | prefixed {lead shown rest : Bytes} {type : ConditionType} {c : Condition}
      (inner : Hides type shown c) :
      Hides .prefixed (Wire.octets lead ++ frame type shown ++ rest) c
  | hidden {needed : UInt32} {count : Nat} {before : List Entry} {w : Weight} {c : Condition}
      {rest : Bytes} (few : count ≤ Threshold.maxParts) :
      Hides .threshold (Threshold.header needed count ++
        (before.flatMap Entry.bytes ++ ((Entry.hidden w c).bytes ++ rest))) c
  | revealed {needed : UInt32} {count weight : Nat} {before : List Entry} {type : ConditionType}
      {shown junk rest : Bytes} {c : Condition} (few : count ≤ Threshold.maxParts)
      (light : weight < 2 ^ 32) (inner : Hides type shown c) :
      Hides .threshold (Threshold.header needed count ++ (before.flatMap Entry.bytes ++
        (Wire.uint weight ++ Wire.octets (frame type shown ++ junk) ++ Wire.octets [] ++ rest))) c

/-- No hidden condition declares 2⁵⁶ bytes or more. -/
def Modest (type : ConditionType) (payload : Bytes) : Prop :=
  ∀ c, Hides type payload c → c.size.toNat < 2 ^ 56

section Listing

variable {needed : UInt32} {entries : List Entry} {c : Condition}

theorem frame_append_inj {type other : ConditionType} {payload shown rest : Bytes}
    (small : (frame type payload).length < 2 ^ 64)
    (same : frame type payload = frame other shown ++ rest) : type = other ∧ payload = shown := by
  have lengths := congrArg List.length same
  rw [List.length_append, frame_length, frame_length, Wire.octetsLength,
    Wire.octetsLength] at lengths
  rw [frame_length, Wire.octetsLength] at small
  rw [frame, frame, List.append_assoc] at same
  obtain ⟨types, octets⟩ := List.append_inj same (by simp)
  rw [← List.append_nil (Wire.octets payload)] at octets
  exact ⟨ConditionType.bytes_injective types,
    (Wire.octets_append_inj (by omega) (by omega) octets).1⟩

theorem Entry.tail_of_flatMap {before : List Entry} {tail : Bytes}
    (same : entries.flatMap Entry.bytes = before.flatMap Entry.bytes ++ tail)
    (small : (entries.flatMap Entry.bytes).length < 2 ^ 64) :
    ∃ after, entries = before ++ after ∧ tail = after.flatMap Entry.bytes := by
  induction before generalizing entries with
  | nil => exact ⟨entries, rfl, same.symm⟩
  | cons entry before ih =>
    cases entries with
    | nil =>
      rw [List.flatMap_nil, List.flatMap_cons, List.append_assoc] at same
      exact absurd (List.append_eq_nil_iff.1 same.symm).1 entry.bytes_ne_nil
    | cons first entries =>
      rw [List.flatMap_cons, List.flatMap_cons, List.append_assoc] at same
      rw [List.flatMap_cons] at small
      obtain ⟨rfl, rest⟩ := Entry.bytes_append_inj same small
      rw [List.length_append] at small
      obtain ⟨after, rfl, tails⟩ := ih rest (by omega)
      exact ⟨after, rfl, tails⟩

theorem Entry.eq_hidden {w : Weight} {rest : Bytes} {after : List Entry}
    (same : (Entry.hidden w c).bytes ++ rest = after.flatMap Entry.bytes)
    (small : (after.flatMap Entry.bytes).length < 2 ^ 64) : .hidden w c ∈ after := by
  cases after with
  | nil => exact absurd (List.append_eq_nil_iff.1 same).1 (Entry.hidden w c).bytes_ne_nil
  | cons entry after =>
    rw [List.flatMap_cons] at same small
    obtain ⟨rfl, _⟩ := Entry.bytes_append_inj same (by rwa [same])
    exact List.mem_cons_self

theorem Entry.eq_revealed {weight : Nat} {binary rest : Bytes} {after : List Entry}
    (nonempty : binary ≠ []) (light : weight < 2 ^ 32)
    (same : Wire.uint weight ++ Wire.octets binary ++ Wire.octets [] ++ rest =
      after.flatMap Entry.bytes)
    (small : (after.flatMap Entry.bytes).length < 2 ^ 64) :
    ∃ w, .revealed w binary ∈ after := by
  have light' : weight < 2 ^ 64 := Nat.lt_trans light (by decide)
  have bound (w : Weight) : w.toNat < 2 ^ 64 := Nat.lt_trans w.toNat_lt (by decide)
  rw [← same] at small
  cases after with
  | nil =>
    have none := (List.append_eq_nil_iff.1 same).1
    simp [Wire.octets, Wire.length] at none
  | cons entry after =>
    rw [List.flatMap_cons] at same
    cases entry with
    | revealed w more =>
      obtain ⟨_, rfl, _⟩ := Entry.raw_append_inj light' (bound w) same small
      exact ⟨w, List.mem_cons_self⟩
    | hidden w condition =>
      obtain ⟨_, empty, _⟩ := Entry.raw_append_inj light' (bound w) same small
      exact absurd empty nonempty

theorem hides_listing (small : (listing needed entries).length < 2 ^ 64)
    (hides : Hides .threshold (listing needed entries) c) :
    (∃ w, .hidden w c ∈ entries) ∨ ∃ w type shown junk,
      .revealed w (frame type shown ++ junk) ∈ entries ∧ Hides type shown c := by
  have long : entries.length < 2 ^ 64 := by
    have few := Entry.length_le_flatMap entries
    rw [listing, List.length_append] at small
    omega
  have short : (entries.flatMap Entry.bytes).length < 2 ^ 64 := by
    rw [listing, List.length_append] at small
    omega
  have countable {count : Nat} (few : count ≤ Threshold.maxParts) : count < 2 ^ 64 :=
    Nat.lt_of_le_of_lt few (by decide)
  generalize form : listing needed entries = payload at hides
  cases hides with
  | @hidden _ _ before w _ rest few =>
    obtain ⟨_, _, same⟩ := Threshold.header_append_inj long (countable few) form
    obtain ⟨after, rfl, tail⟩ := Entry.tail_of_flatMap same short
    rw [List.flatMap_append, List.length_append] at short
    exact Or.inl ⟨w, List.mem_append_right _ (Entry.eq_hidden tail (by omega))⟩
  | @revealed _ _ weight before type shown junk rest _ few light inner =>
    obtain ⟨_, _, same⟩ := Threshold.header_append_inj long (countable few) form
    obtain ⟨after, rfl, tail⟩ := Entry.tail_of_flatMap same short
    rw [List.flatMap_append, List.length_append] at short
    have nonempty : frame type shown ++ junk ≠ [] := by simp [frame, bigEndian]
    obtain ⟨w, mem⟩ := Entry.eq_revealed nonempty light tail (by omega)
    exact Or.inr ⟨w, type, shown, junk, List.mem_append_right _ mem, inner⟩

end Listing

end CryptoConditions.Fulfillment
