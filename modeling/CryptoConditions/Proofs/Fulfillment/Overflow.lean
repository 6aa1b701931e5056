import CryptoConditions.Proofs.Fulfillment.Layout

/-! Where a size may overflow while a fulfillment is read. No reader of bytes fails in this way: it
is always a prefix or a threshold that is put together from parts that have been read. -/

namespace CryptoConditions

theorem Wire.Reader.orThrow_eq_error {ε α : Type} {wrap : CodecError → ε} {read : Wire.Reader α}
    {bytes : Bytes} {e : ε} (failed : read.orThrow wrap bytes = .error e) :
    ∃ fault, e = wrap fault := by
  unfold Wire.Reader.orThrow at failed
  split at failed
  · cases failed
  · next fault _ _ =>
    cases failed
    exact ⟨fault, rfl⟩

theorem Weight.ofNat_ne_overflow (n : Nat) : Weight.ofNat n ≠ .error .sizeOverflow := by
  unfold Weight.ofNat
  split
  · split <;> simp
  · simp

namespace Condition

theorem ofParts_ne_overflow (type : ConditionType) (features : Features) (hash : Bytes)
    (size : UInt64) : ofParts type features hash size ≠ .error .sizeOverflow := by
  unfold ofParts
  split
  · simp
  · split
    · simp
    · split <;> simp

theorem ofWire_ne_overflow (type features : Nat) (hash : Bytes) (size : Nat) :
    ofWire type features hash size ≠ .error .sizeOverflow := by
  unfold ofWire
  split
  · simp
  · split
    · simp
    · exact ofParts_ne_overflow _ _ _ _

theorem ofBinary_ne_overflow (bytes : Bytes) : ofBinary bytes ≠ .error .sizeOverflow := by
  have codec {α : Type} {read : Wire.Reader α} {bytes : Bytes}
      (failed : read.orThrow codecError bytes = .error .sizeOverflow) : False := by
    obtain ⟨_, same⟩ := Wire.Reader.orThrow_eq_error failed
    cases same
  intro failed
  rcases bind_eq_error.1 failed with failed | ⟨⟨c, rest⟩, _, failed⟩
  · simp only [Condition.read, step_bind_eq_error, step_lift_eq_error] at failed
    rcases failed with failed | ⟨_, _, _, failed | ⟨_, _, _, failed | ⟨_, _, _, failed |
      ⟨_, _, _, failed⟩⟩⟩⟩
    · exact codec failed
    · exact codec failed
    · exact codec failed
    · exact codec failed
    · exact ofWire_ne_overflow _ _ _ _ failed
  · rcases bind_eq_error.1 failed with failed | ⟨_, _, failed⟩
    · exact codec failed
    · cases failed

end Condition

namespace Fulfillment

theorem orThrow_ne_overflow {α : Type} {read : Wire.Reader α} {bytes : Bytes} :
    read.orThrow codecError bytes ≠ .error .sizeOverflow := by
  intro failed
  obtain ⟨_, same⟩ := Wire.Reader.orThrow_eq_error failed
  cases same

theorem whole_eq_overflow {α : Type} {step : Step α} {bytes : Bytes}
    (failed : whole step bytes = .error .sizeOverflow) : step bytes = .error .sizeOverflow := by
  rcases bind_eq_error.1 failed with failed | ⟨⟨a, rest⟩, _, failed⟩
  · exact failed
  · rcases bind_eq_error.1 failed with failed | ⟨_, _, failed⟩
    · exact absurd failed orThrow_ne_overflow
    · cases failed

section Readers

variable {read : PayloadReader} {bytes payload : Bytes}

theorem readFrame_eq_overflow (failed : readFrame read bytes = .error .sizeOverflow) :
    ∃ type shown rest, bytes = bigEndian 2 type ++ Wire.octets shown ++ rest ∧
      read type shown = .error .sizeOverflow := by
  simp only [readFrame, readOctets, step_bind_eq_error, step_lift_eq_error,
    orThrow_ne_overflow, false_or, Wire.Reader.orThrow_eq_ok] at failed
  obtain ⟨type, _, first, shown, rest, second, failed⟩ := failed
  obtain ⟨rfl, _⟩ := Wire.Reader.fixed_ok first
  obtain ⟨rfl, _⟩ := Wire.Reader.octets_ok second
  exact ⟨type, shown, rest, by rw [List.append_assoc], failed⟩

theorem ofPrefixPayload_eq_overflow (failed : ofPrefixPayload read payload = .error .sizeOverflow) :
    ∃ lead binary, payload = Wire.octets lead ++ binary ∧
      (readFrame read binary = .error .sizeOverflow ∨
        ∃ sub, whole (readFrame read) binary = .ok sub ∧
          ofPrefix lead sub = .error .sizeOverflow) := by
  rcases bind_eq_error.1 failed with failed | ⟨⟨lead, sub⟩, taken, failed⟩
  · have failed := whole_eq_overflow failed
    simp only [readOctets, step_bind_eq_error, orThrow_ne_overflow, false_or,
      Wire.Reader.orThrow_eq_ok] at failed
    obtain ⟨lead, binary, first, failed | ⟨_, _, _, failed⟩⟩ := failed
    · exact ⟨lead, binary, by rw [(Wire.Reader.octets_ok first).1], Or.inl failed⟩
    · cases failed
  · simp only [whole_eq_ok, step_bind_eq_ok, step_pure_eq_ok, readOctets,
      Wire.Reader.orThrow_eq_ok] at taken
    obtain ⟨_, binary, first, _, _, second, same⟩ := taken
    cases same
    exact ⟨lead, binary, by rw [(Wire.Reader.octets_ok first).1],
      Or.inr ⟨sub, whole_eq_ok.2 second, failed⟩⟩

theorem readEntry_eq_overflow (failed : readEntry read bytes = .error .sizeOverflow) :
    ∃ weight shown rest, weight < 2 ^ 32 ∧
      bytes = Wire.uint weight ++ Wire.octets shown ++ Wire.octets [] ++ rest ∧
      readFrame read shown = .error .sizeOverflow := by
  simp only [readEntry, readUint, readOctets, step_bind_eq_error, orThrow_ne_overflow, false_or,
    Wire.Reader.orThrow_eq_ok] at failed
  obtain ⟨weight, _, first, failed⟩ := failed
  obtain ⟨rfl, _⟩ := Wire.Reader.uint_ok first
  split at failed
  · rcases step_bind_eq_error.1 failed with failed | ⟨_, _, thrown, _⟩
    · cases failed
    · cases thrown
  · next light =>
    simp only [step_bind_eq_error, orThrow_ne_overflow, false_or,
      Wire.Reader.orThrow_eq_ok] at failed
    obtain ⟨shown, _, second, hidden, rest, third, failed⟩ := failed
    obtain ⟨rfl, _⟩ := Wire.Reader.octets_ok second
    obtain ⟨rfl, _⟩ := Wire.Reader.octets_ok third
    cases shown with
    | nil =>
      cases hidden with
      | nil => cases failed
      | cons _ _ =>
        simp only [step_bind_eq_error, step_lift_eq_error, Condition.ofBinary_ne_overflow,
          Weight.ofNat_ne_overflow, false_or] at failed
        obtain ⟨_, _, _, _, _, _, failed⟩ := failed
        cases failed
    | cons byte tail =>
      cases hidden with
      | cons _ _ => cases failed
      | nil =>
        simp only [step_bind_eq_error, step_lift_eq_error, Weight.ofNat_ne_overflow,
          false_or] at failed
        rcases failed with failed | ⟨_, _, _, _, _, _, failed⟩
        · exact ⟨weight, byte :: tail, rest, Nat.lt_of_not_le light,
            by simp only [List.append_assoc], whole_eq_overflow failed⟩
        · cases failed

theorem readEntries_eq_overflow {count : Nat}
    (failed : readEntries read count bytes = .error .sizeOverflow) :
    ∃ (before : List Entry) (rest : Bytes), bytes = before.flatMap Entry.bytes ++ rest ∧
      readEntry read rest = .error .sizeOverflow := by
  induction count generalizing bytes with
  | zero => cases failed
  | succ count ih =>
    simp only [readEntries, step_bind_eq_error] at failed
    rcases failed with here | ⟨_, _, first, later | ⟨_, _, _, never⟩⟩
    · exact ⟨[], bytes, rfl, here⟩
    · obtain ⟨entry, rfl, _⟩ := readEntry_ok first
      obtain ⟨before, rest, rfl, there⟩ := ih later
      exact ⟨entry :: before, rest, by rw [List.flatMap_cons, List.append_assoc], there⟩
    · cases never

theorem readThreshold_eq_overflow (failed : readThreshold read bytes = .error .sizeOverflow) :
    ∃ needed count entries, count ≤ Threshold.maxParts ∧
      bytes = Threshold.header needed count ++ entries ∧
      readEntries read count entries = .error .sizeOverflow := by
  simp only [readThreshold, readUint, step_bind_eq_error, orThrow_ne_overflow, false_or,
    Wire.Reader.orThrow_eq_ok] at failed
  obtain ⟨number, _, first, count, entries, second, failed⟩ := failed
  obtain ⟨rfl, small⟩ := Wire.Reader.fixed_ok first
  obtain ⟨rfl, _⟩ := Wire.Reader.uint_ok second
  split at failed
  · rcases step_bind_eq_error.1 failed with failed | ⟨_, _, thrown, _⟩
    · cases failed
    · cases thrown
  · next declared =>
    rcases step_bind_eq_error.1 failed with failed | ⟨_, _, _, failed⟩
    · have value : (UInt32.ofNat number).toNat = number := by
        rw [UInt32.toNat_ofNat', Nat.mod_eq_of_lt (show number < 2 ^ 32 from small)]
      refine ⟨UInt32.ofNat number, count, entries, Nat.le_of_not_lt (not_or.1 declared).2, ?_,
        failed⟩
      rw [Threshold.header, value, List.append_assoc]
    · cases failed

theorem checkShape_ne_overflow (needed : UInt32) (count : Nat) :
    Threshold.checkShape needed count ≠ .error .sizeOverflow := by
  unfold Threshold.checkShape
  split
  · simp
  · split
    · simp
    · split <;> simp

theorem ofEntries_eq_overflow {needed : UInt32} {list : List (Fulfillment × Bool)}
    (failed : ofEntries needed list = .error .sizeOverflow) :
    Threshold.checkShape needed list.length = .ok () ∧
      ∃ order : List (Fulfillment × Bool), order.Perm list ∧
        Threshold.condition needed ((order.map Prod.fst).map commitment) =
          .error .sizeOverflow := by
  simp only [ofEntries_eq, bind_eq_error, checkShape_ne_overflow, false_or] at failed
  obtain ⟨_, shape, failed⟩ := failed
  refine ⟨shape, ordered list, ordered_perm list, ?_⟩
  split at failed
  · rcases bind_eq_error.1 failed with thrown | ⟨_, thrown, _⟩
    · cases thrown
    · cases thrown
  · rcases bind_eq_error.1 failed with conditioned | ⟨_, _, never⟩
    · exact conditioned
    · cases never

theorem ofThresholdPayload_eq_overflow
    (failed : ofThresholdPayload read payload = .error .sizeOverflow) :
    payload.length ≤ Threshold.maxPayload ∧ (readThreshold read payload = .error .sizeOverflow ∨
      ∃ needed entries list, payload = listing needed entries ∧
        List.Forall₂ (Entry.ReadAs read) entries list ∧
        ofEntries needed list = .error .sizeOverflow) := by
  unfold ofThresholdPayload at failed
  split at failed
  · rcases bind_eq_error.1 failed with failed | ⟨_, thrown, _⟩
    · cases failed
    · cases thrown
  · next fits =>
    refine ⟨Nat.le_of_not_lt fits, ?_⟩
    rcases bind_eq_error.1 failed with failed | ⟨⟨number, list⟩, taken, failed⟩
    · exact Or.inl (whole_eq_overflow failed)
    · obtain ⟨entries, form, listed⟩ := readThreshold_ok (whole_eq_ok.1 taken)
      exact Or.inr ⟨_, entries, list, form, listed, failed⟩

end Readers

section Simple

variable {payload : Bytes}

theorem ofEd25519Payload_ne_overflow : ofEd25519Payload payload ≠ .error .sizeOverflow := by
  unfold ofEd25519Payload
  split
  · simp
  · split
    · simp
    · unfold ofEd25519
      dsimp only
      split <;> simp

theorem ofRsaPayload_ne_overflow : ofRsaPayload payload ≠ .error .sizeOverflow := by
  unfold ofRsaPayload
  dsimp only
  split
  · simp
  · split
    · simp
    · split
      · simp
      · unfold ofRsa
        dsimp only
        split
        · split <;> simp
        · simp

theorem ofTimeoutPayload_ne_overflow : ofTimeoutPayload payload ≠ .error .sizeOverflow := by
  intro failed
  rcases bind_eq_error.1 failed with failed | ⟨_, _, never⟩
  · exact orThrow_ne_overflow (whole_eq_overflow failed)
  · cases never

end Simple

theorem ofPayload_eq_overflow {levels type : Nat} {payload : Bytes}
    (failed : ofPayload levels type payload = .error .sizeOverflow) :
    ∃ below, levels = below + 1 ∧
      (type = ConditionType.prefixed.id ∧
          ofPrefixPayload (ofPayload below) payload = .error .sizeOverflow ∨
        type = ConditionType.threshold.id ∧
          ofThresholdPayload (ofPayload below) payload = .error .sizeOverflow) := by
  cases levels with
  | zero => cases failed
  | succ below =>
    refine ⟨below, rfl, ?_⟩
    unfold ofPayload at failed
    split at failed
    · cases failed
    · cases failed
    · next typed => exact Or.inl ⟨(ConditionType.id_of_ofId? typed).symm, failed⟩
    · next typed => exact Or.inr ⟨(ConditionType.id_of_ofId? typed).symm, failed⟩
    · exact absurd failed ofRsaPayload_ne_overflow
    · exact absurd failed ofEd25519Payload_ne_overflow
    · exact absurd failed ofTimeoutPayload_ne_overflow

end Fulfillment

end CryptoConditions
