import CryptoConditions.Proofs.Fulfillment.Canonical
import CryptoConditions.Proofs.Fulfillment.Reach
import CryptoConditions.Proofs.Transaction.Joint

/-! Whether a transaction is fulfilled is answered, yes or no, as long as its fulfillments are read
without an overflow. Keys never are the cause: what they lock with is small. An overflow there is
none where no hidden condition declares an enormous size; but one such condition is enough. -/

namespace CryptoConditions.Transaction

section Checking

variable {message : Bytes} {input : Input}

theorem ofOwners_ne_overflow {keys : List PublicKey} (standard : ∀ key ∈ keys, key.Standard) :
    Fulfillment.ofOwners keys ≠ .error .sizeOverflow := by
  by_cases few : keys.length ≤ Threshold.maxParts
  · by_cases nonempty : keys = []
    · subst nonempty
      rintro ⟨⟩
    · obtain ⟨lock, made⟩ := ofOwners_of_standard nonempty few standard
      rw [made]
      simp
  · -- Too many keys are refused before any size is computed.
    rw [ofOwners_of_many standard (Nat.lt_of_not_le few), refusal]
    split <;> simp

theorem verify_ne_overflow {f : Fulfillment} {c : Condition} :
    f.verify c message ≠ .error .sizeOverflow := by
  unfold Fulfillment.verify
  split
  · simp
  · split
    · simp
    · split <;> simp

theorem ofCondition_eq_overflow {α : Type} {x : Except ConditionError α}
    (failed : ofCondition x = .error (.condition .sizeOverflow)) : x = .error .sizeOverflow := by
  cases x with
  | ok _ => cases failed
  | error _ =>
    cases failed
    rfl

theorem checkInput_eq_overflow
    (failed : checkInput message input = .error (.condition .sizeOverflow)) :
    ∃ text, input.fulfillment = some text ∧ Fulfillment.ofUri text = .error .sizeOverflow := by
  unfold checkInput at failed
  split at failed
  · cases failed
  · next text attached =>
    rcases bind_eq_error.1 failed with failed | ⟨f, _, failed⟩
    · exact ⟨text, attached, ofCondition_eq_overflow failed⟩
    · dsimp only at failed
      split at failed
      · next keys known =>
        have standard := forall_of_mapM (fun _ _ => PublicKey.standard_of_ofBase58) known
        rcases bind_eq_error.1 failed with failed | ⟨_, same, failed⟩
        · cases failed
        · cases same
          rcases bind_eq_error.1 failed with failed | ⟨_, _, failed⟩
          · exact absurd (ofCondition_eq_overflow failed) (ofOwners_ne_overflow standard)
          · exact absurd (ofCondition_eq_overflow failed) verify_ne_overflow
      · cases failed

theorem checkInputs_answers {inputs : List Input}
    (calm : ∀ input ∈ inputs, checkInput message input ≠ .error (.condition .sizeOverflow)) :
    ∃ answer, checkInputs message inputs = .ok answer := by
  induction inputs with
  | nil => exact ⟨true, rfl⟩
  | cons input inputs ih =>
    rw [List.forall_mem_cons] at calm
    unfold checkInputs
    split
    · exact ih calm.2
    · next failed => exact absurd failed calm.1
    · exact ⟨false, rfl⟩

end Checking

/-- Bytes and texts are read as fulfillments, or refused, and transactions are fulfilled, or not,
where no condition that is hidden in them declares 2⁵⁶ bytes or more. -/
theorem answers_of_modest (bytes : Bytes) (text : String) (t : Transaction) :
    (Fulfillment.ModestBytes bytes → Fulfillment.ofBinary bytes ≠ .error .sizeOverflow) ∧
    (Fulfillment.ModestUri text → Fulfillment.ofUri text ≠ .error .sizeOverflow) ∧
    ((∀ input ∈ t.inputs, ∀ text, input.fulfillment = some text → Fulfillment.ModestUri text) →
      ∃ answer, t.isFulfilled = .ok answer) := by
  refine ⟨fun modest => modest.ne_overflow, fun modest => modest.ne_overflow, fun modest => ?_⟩
  unfold isFulfilled
  split
  · exact ⟨false, rfl⟩
  · refine checkInputs_answers fun input mem failed => ?_
    obtain ⟨text, attached, overflow⟩ := checkInput_eq_overflow failed
    exact (modest input mem text attached).ne_overflow overflow

section Samples

open Fulfillment

theorem modest_sampleEntries : Modest .threshold (listing 2 sampleEntries) := by
  intro c hides
  rcases hides_listing (by decide +kernel) hides with ⟨w, mem⟩ | ⟨w, type, shown, junk, mem, inner⟩
  · simp only [sampleEntries, List.mem_cons, Entry.hidden.injEq, List.not_mem_nil, or_false,
      reduceCtorEq] at mem
    rw [mem.2]
    decide
  · simp only [sampleEntries, List.mem_cons, Entry.revealed.injEq, List.not_mem_nil, or_false,
      reduceCtorEq, false_or] at mem
    obtain ⟨rfl, _⟩ := frame_append_inj (by decide) mem.2.symm
    cases inner

def listingUri (needed : UInt32) (entries : List Entry) : String :=
  (⟨ConditionType.threshold.id, listing needed entries⟩ : Uri.FulfillmentParts).format

def carrying (text : String) : Transaction :=
  ⟨"", "", .create, .null, none, [⟨[], none, some text⟩], [], ⟨0, 0⟩⟩

theorem modestBytes_sampleEntries : ModestBytes (frame .threshold (listing 2 sampleEntries)) := by
  refine ⟨by decide +kernel, fun type shown rest same => ?_⟩
  obtain ⟨rfl, rfl⟩ := frame_append_inj (by decide +kernel) same
  exact modest_sampleEntries

theorem modestUri_sampleEntries : ModestUri (listingUri 2 sampleEntries) := by
  intro type payload parsed
  rw [listingUri, Uri.parseFulfillment_format (by decide)] at parsed
  obtain ⟨types, rfl⟩ := Uri.FulfillmentParts.mk.inj (Except.ok.inj parsed)
  obtain rfl := ConditionType.bytes_injective (congrArg (bigEndian 2) types)
  exact ⟨by decide +kernel, modest_sampleEntries⟩

theorem answers_of_modest_sample :
    ofBinary (frame .threshold (listing 2 sampleEntries)) ≠ .error .sizeOverflow ∧
    ofUri (listingUri 2 sampleEntries) ≠ .error .sizeOverflow ∧
    ∃ answer, (carrying (listingUri 2 sampleEntries)).isFulfilled = .ok answer := by
  obtain ⟨binary, uri, fulfilled⟩ := answers_of_modest
    (frame .threshold (listing 2 sampleEntries)) (listingUri 2 sampleEntries)
    (carrying (listingUri 2 sampleEntries))
  refine ⟨binary modestBytes_sampleEntries, uri modestUri_sampleEntries,
    fulfilled fun input mem text attached => ?_⟩
  obtain rfl := List.mem_singleton.1 mem
  cases attached
  exact modestUri_sampleEntries

theorem length_zeros : (List.replicate 32 (0 : UInt8)).length = 32 := rfl

def hugeCondition : Condition :=
  simpleCondition .preimage ⟨List.replicate 32 0, length_zeros⟩ (2 ^ 64 - 1)

def hugeParts : List Fulfillment :=
  [preimage sampleWeight [1], withheld (.plain hugeCondition)]

def hugeEntries : List Entry :=
  [.revealed sampleWeight (frame .preimage [1]), .hidden Weight.one hugeCondition]

theorem ofEntries_hugeParts :
    ofEntries 1 (hugeParts.zip [true, false]) = .error .sizeOverflow := by
  have conditioned : Threshold.condition 1 (hugeParts.map commitment) = .error .sizeOverflow := by
    decide +kernel
  have stays : ordered (hugeParts.zip [true, false]) = hugeParts.zip [true, false] := by
    refine ordered_of_sorted ?_
    simp [hugeParts, Commitment.precedes_iff]
    decide
  have shape : Threshold.checkShape 1 (hugeParts.zip [true, false]).length = .ok () := rfl
  rw [ofEntries_eq, stays, bind_of_ok shape]
  dsimp only
  rw [if_neg (by decide)]
  exact bind_of_error conditioned _

theorem ofRoot_hugeEntries : ofRoot ConditionType.threshold.id (listing 1 hugeEntries) =
    .error .sizeOverflow := by
  have fits : (listing 1 hugeEntries).length ≤ Threshold.maxPayload := by decide +kernel
  have head := @readEntry_revealed (ofPayload maxNesting) (preimage sampleWeight [1]).commitment
    .preimage [1] (by decide) (Entry.hidden Weight.one hugeCondition).bytes
  have tail := @readEntry_hidden (ofPayload maxNesting) (.plain hugeCondition)
    (simpleCondition_consistent _ _ _) []
  rw [List.append_nil] at tail
  have listed : readEntries (ofPayload maxNesting) 2 (hugeEntries.flatMap Entry.bytes) =
      .ok (hugeParts.zip [true, false], []) := by
    rw [readEntries]
    refine (step_bind head _).trans ?_
    rw [readEntries, step_bind (step_bind tail _)]
    rfl
  have taken := @readThreshold_header (ofPayload maxNesting) 1 2 rfl
    (hugeEntries.flatMap Entry.bytes)
  rw [listed] at taken
  have read : whole (readThreshold (ofPayload maxNesting)) (listing 1 hugeEntries) =
      .ok (1, hugeParts.zip [true, false]) := whole_of_ok taken
  rw [ofRoot, ofPayload_succ]
  dsimp only
  rw [ofThresholdPayload, if_neg (Nat.not_lt.2 fits)]
  exact (bind_of_ok read _).trans ofEntries_hugeParts

/-- One hidden condition is enough to end all three without an answer. -/
theorem unanswered_of_huge :
    ofBinary (frame .threshold (listing 1 hugeEntries)) = .error .sizeOverflow ∧
    ofUri (listingUri 1 hugeEntries) = .error .sizeOverflow ∧
    (carrying (listingUri 1 hugeEntries)).isFulfilled = .error .sizeOverflow := by
  have read : ofUri (listingUri 1 hugeEntries) = .error .sizeOverflow := by
    rw [ofUri, listingUri, Uri.parseFulfillment_format (by decide)]
    exact ofRoot_hugeEntries
  refine ⟨?_, read, ?_⟩
  · rw [ofBinary, whole_readFrame .threshold (by decide +kernel)]
    exact ofRoot_hugeEntries
  · simp only [isFulfilled, carrying, checkInputs, checkInput, read, ofCondition,
      List.isEmpty_cons, Bool.false_eq_true, if_false, bind, Except.bind]

end Samples

end CryptoConditions.Transaction
