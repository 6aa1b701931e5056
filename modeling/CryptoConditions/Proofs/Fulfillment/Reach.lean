import CryptoConditions.Proofs.Fulfillment.Bound
import CryptoConditions.Proofs.Fulfillment.Hidden
import CryptoConditions.Proofs.Fulfillment.Overflow
import CryptoConditions.Proofs.Threshold.Headroom

/-! How large sizes get. All sizes that are not declared follow from bytes that are there, so those
of a modest payload stay in proportion to its length, and none overflows while it is read. -/

namespace CryptoConditions.Fulfillment

/-- A bound for the sizes of modest payloads, with so many levels to go. -/
def reach (levels : Nat) (payload : Bytes) : Nat :=
  payload.length + min payload.length Threshold.maxPayload * 2 ^ 51 + 22 * levels

def Stays (bound : Nat) (result : Except ConditionError Fulfillment) : Prop :=
  Yields (fun f => f.condition.size.toNat ≤ bound) result

/-- All modest payloads within the limits of memory stay in reach. -/
def Calm (levels : Nat) : Prop :=
  ∀ type payload, payload.length < 2 ^ 63 → Modest type payload →
    Stays (reach levels payload) (ofPayload levels type.id payload)

theorem reach_lt {levels : Nat} {payload : Bytes} (small : payload.length < 2 ^ 63)
    (shallow : levels ≤ maxNesting + 1) : reach levels payload + 100 < 2 ^ 64 := by
  have most : min payload.length Threshold.maxPayload ≤ 4095 := Nat.min_le_right _ _
  unfold maxNesting at shallow
  unfold reach
  omega

theorem octetsLength_le {n : Nat} (small : n < 2 ^ 64) : Wire.octetsLength n ≤ n + 10 := by
  have width := Wire.lengthWidth_le (show n < 2 ^ 72 by omega)
  unfold Wire.octetsLength
  omega

theorem framed_of_overflow {levels : Nat} {bytes : Bytes}
    (failed : readFrame (ofPayload levels) bytes = .error .sizeOverflow) :
    ∃ type shown rest, bytes = frame type shown ++ rest ∧
      ofPayload levels type.id shown = .error .sizeOverflow := by
  obtain ⟨number, shown, rest, rfl, inner⟩ := readFrame_eq_overflow failed
  obtain ⟨_, _, ⟨rfl, _⟩ | ⟨rfl, _⟩⟩ := ofPayload_eq_overflow inner
  · exact ⟨.prefixed, shown, rest, rfl, inner⟩
  · exact ⟨.threshold, shown, rest, rfl, inner⟩

section Prefix

variable {lead binary payload : Bytes} {sub : Fulfillment} {levels : Nat}

theorem stays_ofPrefix (fits : lead.length + sub.condition.size.toNat + 22 < 2 ^ 64) :
    Stays (lead.length + sub.condition.size.toNat + 22) (ofPrefix lead sub) := by
  have first := octetsLength_le (show lead.length < 2 ^ 64 by omega)
  have second := octetsLength_le sub.condition.size.toNat_lt
  rw [ofPrefix, bind_of_ok (Threshold.checkSize_of_lt (by omega))]
  refine .ok ?_
  change (UInt64.ofNat _).toNat ≤ _
  rw [UInt64.toNat_ofNat', Nat.mod_eq_of_lt (by omega)]
  omega

theorem Calm.prefixed_le (calm : Calm levels)
    (small : (Wire.octets lead ++ binary).length < 2 ^ 63)
    (modest : Modest .prefixed (Wire.octets lead ++ binary))
    (inner : whole (readFrame (ofPayload levels)) binary = .ok sub) :
    lead.length + sub.condition.size.toNat + 22 ≤
      reach (levels + 1) (Wire.octets lead ++ binary) := by
  obtain ⟨shown, rfl, _, read⟩ := readFrame_ok (ofPayload_faithful levels) inner
  have length : (Wire.octets lead ++ frame sub.type shown).length =
      Wire.octetsLength lead.length + (2 + Wire.octetsLength shown.length) := by
    rw [List.length_append, Wire.octets_length, frame_length]
  unfold Wire.octetsLength at length
  have inside : Modest sub.type shown := by
    intro c hides
    have outside := @Hides.prefixed lead shown [] _ c hides
    rw [List.append_nil] at outside
    exact modest c outside
  have below := (calm sub.type shown (by omega) inside).of_ok sub read
  unfold reach at below ⊢
  omega

theorem Calm.stays_ofPrefixPayload (calm : Calm levels) (shallow : levels ≤ maxNesting)
    (small : payload.length < 2 ^ 63) (modest : Modest .prefixed payload) :
    Stays (reach (levels + 1) payload) (ofPrefixPayload (ofPayload levels) payload) := by
  have fits : reach (levels + 1) payload + 100 < 2 ^ 64 :=
    reach_lt small (Nat.succ_le_succ shallow)
  constructor
  · intro failed
    obtain ⟨lead, binary, rfl, inner | ⟨sub, inner, outer⟩⟩ := ofPrefixPayload_eq_overflow failed
    · obtain ⟨type, shown, rest, rfl, overflow⟩ := framed_of_overflow inner
      rw [List.length_append, List.length_append, frame_length, Wire.octetsLength] at small
      exact (calm type shown (by omega) fun c hides =>
        modest c (by rw [← List.append_assoc]; exact .prefixed hides)).ne_overflow overflow
    · have le := calm.prefixed_le small modest inner
      exact (stays_ofPrefix (by omega)).ne_overflow outer
  · intro f made
    obtain ⟨lead, binary, sub, rfl, _, inner, outer⟩ := ofPrefixPayload_ok made
    have le := calm.prefixed_le small modest inner
    exact Nat.le_trans ((stays_ofPrefix (by omega)).of_ok f outer) le

end Prefix

section Entries

variable {needed : UInt32} {entries : List Entry} {list : List (Fulfillment × Bool)}
  {payload : Bytes} {levels : Nat}

theorem length_hidden (w : Weight) (c : Condition) : 38 ≤ (Entry.hidden w c).bytes.length := by
  have binary : c.binary.length = 38 + byteWidth c.size.toNat := by
    rw [Condition.binary_length, Condition.binaryLength_eq]
  simp only [Entry.bytes, List.length_append, Wire.octets_length, binary, Wire.octetsLength]
  omega

theorem length_revealed (w : Weight) (type : ConditionType) (shown : Bytes) :
    shown.length + 2 ≤ (Entry.revealed w (frame type shown)).bytes.length := by
  simp only [Entry.bytes, List.length_append, Wire.octets_length, frame_length, Wire.octetsLength]
  omega

theorem Calm.entry_le (calm : Calm levels) (shallow : levels ≤ maxNesting)
    (few : entries.length ≤ Threshold.maxParts)
    (fits : (listing needed entries).length ≤ Threshold.maxPayload)
    (modest : Modest .threshold (listing needed entries)) {entry : Entry}
    {found : Fulfillment × Bool} (mem : entry ∈ entries)
    (readAs : entry.ReadAs (ofPayload levels) found) :
    (Threshold.fullExtent found.1.commitment).most ≤ entry.bytes.length * 2 ^ 51 := by
  have most := Threshold.most_fullExtent_le found.1.commitment
  obtain ⟨before, after, rfl⟩ := List.append_of_mem mem
  have layout : listing needed (before ++ entry :: after) = Threshold.header needed
      (before ++ entry :: after).length ++ (before.flatMap Entry.bytes ++
        (entry.bytes ++ after.flatMap Entry.bytes)) := by
    rw [listing, List.flatMap_append, List.flatMap_cons]
  rw [layout] at modest fits
  cases readAs with
  | @hidden w c consistent =>
    have size := modest c (.hidden few)
    change _ ≤ c.size.toNat + 64 at most
    have long := length_hidden w c
    omega
  | @revealed w binary sub inner =>
    obtain ⟨shown, rfl, _, read⟩ := readFrame_ok (ofPayload_faithful levels) inner
    have inside : Modest sub.type shown := by
      intro c hides
      have outside := @Hides.revealed needed (before ++ .revealed w (frame sub.type shown) ::
        after).length w.toNat before _ shown [] (after.flatMap Entry.bytes) c few w.toNat_lt hides
      rw [List.append_nil] at outside
      exact modest c outside
    have long := length_revealed w sub.type shown
    have short : (Entry.revealed w (frame sub.type shown)).bytes.length ≤ 4095 := by
      unfold Threshold.maxPayload at fits
      simp only [List.length_append] at fits
      omega
    have below := (calm sub.type shown (by omega) inside).of_ok sub read
    have size : (sub.withWeight w).commitment.condition.size.toNat ≤ reach levels shown := by
      rw [commitment_withWeight]
      exact below
    unfold reach at size
    unfold maxNesting at shallow
    dsimp only at most ⊢
    omega

theorem Calm.room_le (calm : Calm levels) (shallow : levels ≤ maxNesting)
    (few : entries.length ≤ Threshold.maxParts)
    (fits : (listing needed entries).length ≤ Threshold.maxPayload)
    (modest : Modest .threshold (listing needed entries))
    (listed : List.Forall₂ (Entry.ReadAs (ofPayload levels)) entries list) :
    Threshold.room ((list.map Prod.fst).map commitment) ≤
      (listing needed entries).length * 2 ^ 51 := by
  have sum : ((((list.map Prod.fst).map commitment).map Threshold.fullExtent).map
      Threshold.Extent.most).sum ≤ (entries.flatMap Entry.bytes).length * 2 ^ 51 := by
    have each (entry : Entry) (found : Fulfillment × Bool) (mem : entry ∈ entries)
        (readAs : entry.ReadAs (ofPayload levels) found) :=
      calm.entry_le shallow few fits modest mem readAs
    clear few fits modest
    induction listed with
    | nil => exact Nat.zero_le _
    | cons first _ ih =>
      have head := each _ _ List.mem_cons_self first
      have tail := ih fun entry found mem => each entry found (List.mem_cons_of_mem _ mem)
      simp only [List.map_cons, List.sum_cons, List.flatMap_cons, List.length_append] at tail ⊢
      omega
  have count := listed.length_eq
  rw [Threshold.room, listing, List.length_append, Threshold.header_length, List.length_map,
    List.length_map, ← count]
  omega

theorem room_perm {parts others : List Commitment} (perm : parts.Perm others) :
    Threshold.room parts = Threshold.room others := by
  rw [Threshold.room, Threshold.room, perm.length_eq, ((perm.map _).map _).sum_nat]

theorem Calm.room_arranged_le (calm : Calm levels) (shallow : levels ≤ maxNesting)
    (short : (listing needed entries).length ≤ Threshold.maxPayload)
    (modest : Modest .threshold (listing needed entries))
    (listed : List.Forall₂ (Entry.ReadAs (ofPayload levels)) entries list)
    (shape : Threshold.checkShape needed list.length = .ok ())
    {order : List (Fulfillment × Bool)} (perm : order.Perm list) :
    Threshold.room ((order.map Prod.fst).map commitment) ≤
        (listing needed entries).length * 2 ^ 51 ∧
      (listing needed entries).length * 2 ^ 51 < 2 ^ 64 := by
  have few : entries.length ≤ Threshold.maxParts := by
    rw [listed.length_eq]
    exact (checkShape_eq_ok.1 shape).2.2
  unfold Threshold.maxPayload at short
  rw [room_perm ((perm.map Prod.fst).map commitment)]
  exact ⟨calm.room_le shallow few short modest listed, by omega⟩

theorem Calm.readThreshold_ne_overflow (calm : Calm levels) (small : payload.length < 2 ^ 63)
    (modest : Modest .threshold payload) :
    readThreshold (ofPayload levels) payload ≠ .error .sizeOverflow := by
  intro failed
  obtain ⟨needed, count, bytes, few, rfl, entries⟩ := readThreshold_eq_overflow failed
  obtain ⟨before, rest, rfl, entry⟩ := readEntries_eq_overflow entries
  obtain ⟨weight, binary, after, light, rfl, framed⟩ := readEntry_eq_overflow entry
  obtain ⟨type, shown, junk, rfl, overflow⟩ := framed_of_overflow framed
  have length : shown.length < 2 ^ 63 := by
    simp only [List.length_append, Wire.octets_length, frame_length, Wire.octetsLength] at small
    omega
  have inside : Modest type shown := fun c hides => modest c (.revealed few light hides)
  exact (calm type shown length inside).ne_overflow overflow

theorem Calm.stays_ofThresholdPayload (calm : Calm levels) (shallow : levels ≤ maxNesting)
    (small : payload.length < 2 ^ 63) (modest : Modest .threshold payload) :
    Stays (reach (levels + 1) payload) (ofThresholdPayload (ofPayload levels) payload) := by
  constructor
  · intro failed
    obtain ⟨short, inner | ⟨needed, entries, list, rfl, listed, made⟩⟩ :=
      ofThresholdPayload_eq_overflow failed
    · exact calm.readThreshold_ne_overflow small modest inner
    · obtain ⟨shape, order, perm, conditioned⟩ := ofEntries_eq_overflow made
      obtain ⟨room, limit⟩ := calm.room_arranged_le shallow short modest listed shape perm
      exact (Threshold.condition_of_room (room.trans_lt limit)).ne_overflow conditioned
  · intro f made
    obtain ⟨needed, entries, list, rfl, short, listed, made⟩ := ofThresholdPayload_ok made
    obtain ⟨order, c, rfl, perm, shape, _, _, conditioned, _⟩ := ofEntries_eq_ok made
    obtain ⟨room, limit⟩ :=
      calm.room_arranged_le shallow short modest listed (perm.length_eq ▸ shape) perm
    have size := (Threshold.condition_of_room (room.trans_lt limit)).of_ok c conditioned
    change c.size.toNat ≤ _
    unfold reach
    rw [Nat.min_eq_left short]
    omega

end Entries

theorem stays_of_simple {levels : Nat} {type : ConditionType} {payload : Bytes}
    (small : payload.length < 2 ^ 63) (simple : type.isCompound = false) :
    Stays (reach (levels + 1) payload) (ofPayload (levels + 1) type.id payload) := by
  have other (compound : ConditionType) (two : compound.isCompound = true) :
      compound.id ≠ type.id := by
    intro same
    obtain rfl := ConditionType.bytes_injective (congrArg (bigEndian 2) same)
    rw [two] at simple
    cases simple
  constructor
  · intro failed
    obtain ⟨_, _, ⟨same, _⟩ | ⟨same, _⟩⟩ := ofPayload_eq_overflow failed
    · exact other .prefixed rfl same.symm
    · exact other .threshold rfl same.symm
  · intro f read
    obtain ⟨same, parsed⟩ := ofPayload_ok read
    have long : payload.length ≤ reach (levels + 1) payload := by
      unfold reach
      omega
    refine Nat.le_trans (Nat.le_of_eq ?_) long
    cases parsed with
    | preimage => exact simpleCondition_size (by omega)
    | ed25519 key signature =>
      rw [List.length_append, key.octets.length_eq, signature.length_eq]
      exact simpleCondition_size (by decide)
    | rsa modulus long signature =>
      rw [List.length_append, Rsa.Modulus.bytes_length, signature.length_eq] at small ⊢
      rw [← Nat.two_mul] at small ⊢
      exact simpleCondition_size (show 2 * modulus.length < 2 ^ 64 by omega)
    | timeout => exact simpleCondition_size (by omega)
    | prefixed => exact absurd same (other .prefixed rfl)
    | threshold => exact absurd same (other .threshold rfl)

theorem calm_of_shallow {levels : Nat} (shallow : levels ≤ maxNesting + 1) : Calm levels := by
  induction levels with
  | zero =>
    intro type payload _ _
    exact .error (by simp)
  | succ levels ih =>
    have calm := ih (Nat.le_of_succ_le shallow)
    have below : levels ≤ maxNesting := Nat.le_of_succ_le_succ shallow
    intro type payload small modest
    cases type with
    | prefixed =>
      rw [ofPayload_succ]
      exact calm.stays_ofPrefixPayload below small modest
    | threshold =>
      rw [ofPayload_succ]
      exact calm.stays_ofThresholdPayload below small modest
    | _ => exact stays_of_simple small rfl

/-- Modest bytes of a fulfillment, within the limits of memory. -/
def ModestBytes (bytes : Bytes) : Prop :=
  bytes.length < 2 ^ 63 ∧ ∀ type shown rest, bytes = frame type shown ++ rest → Modest type shown

def ModestUri (uri : String) : Prop :=
  ∀ type payload, Uri.parseFulfillment uri = .ok ⟨ConditionType.id type, payload⟩ →
    payload.length < 2 ^ 63 ∧ Modest type payload

theorem ModestBytes.ne_overflow {bytes : Bytes} (modest : ModestBytes bytes) :
    ofBinary bytes ≠ .error .sizeOverflow := by
  intro failed
  obtain ⟨type, shown, rest, rfl, overflow⟩ := framed_of_overflow (whole_eq_overflow failed)
  obtain ⟨small, inner⟩ := modest
  rw [List.length_append, frame_length, Wire.octetsLength] at small
  have stays := calm_of_shallow (Nat.le_refl _) type shown (by omega) (inner type shown rest rfl)
  exact stays.ne_overflow overflow

theorem ModestUri.ne_overflow {uri : String} (modest : ModestUri uri) :
    ofUri uri ≠ .error .sizeOverflow := by
  intro failed
  unfold ofUri at failed
  split at failed
  · cases failed
  · next parts parsed =>
    obtain ⟨number, payload⟩ := parts
    have typed : ∃ type, number = ConditionType.id type := by
      obtain ⟨_, _, ⟨same, _⟩ | ⟨same, _⟩⟩ := ofPayload_eq_overflow failed
      · exact ⟨_, same⟩
      · exact ⟨_, same⟩
    obtain ⟨type, rfl⟩ := typed
    obtain ⟨small, inner⟩ := modest type payload parsed
    exact (calm_of_shallow (Nat.le_refl _) type payload small inner).ne_overflow failed

end CryptoConditions.Fulfillment
