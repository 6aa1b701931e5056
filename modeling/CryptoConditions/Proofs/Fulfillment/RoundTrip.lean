import CryptoConditions.Proofs.Fulfillment.Reading
import CryptoConditions.Proofs.Fulfillment.Received

/-! Writing and reading back. What is read is what was received, as far as the
levels go; where they do not go that far, nothing is read at all. -/

namespace CryptoConditions.Fulfillment

def tooDeep : ConditionError :=
  .fulfillment (.nesting maxNesting)

def outcome (levels : Nat) (f : Fulfillment) : Except ConditionError Fulfillment :=
  if f.shownDepth < levels then .ok f.received else .error tooDeep

def ReadBack (levels : Nat) (f : Fulfillment) : Prop :=
  ∀ shown, f.payload = .ok shown → shown.length < 2 ^ 64 →
    ofPayload levels f.type.id shown = outcome levels f

theorem readEntries_succ_of_ite {read : PayloadReader} {count : Nat} {bytes mid rest : Bytes}
    {first : Fulfillment × Bool} {list : List (Fulfillment × Bool)} {e : ConditionError}
    {p q : Prop} [Decidable p] [Decidable q]
    (head : readEntry read bytes = if p then .ok (first, mid) else .error e)
    (tail : readEntries read count mid = if q then .ok (list, rest) else .error e) :
    readEntries read (count + 1) bytes =
      if p ∧ q then .ok (first :: list, rest) else .error e := by
  rw [readEntries]
  by_cases here : p
  · rw [if_pos here] at head
    rw [step_bind head]
    by_cases there : q
    · rw [if_pos there] at tail
      rw [step_bind tail, if_pos ⟨here, there⟩]
      rfl
    · rw [if_neg there] at tail
      rw [step_bind_error tail, if_neg fun both => there both.2]
  · rw [if_neg here] at head
    rw [step_bind_error head, if_neg fun both => here both.1]

theorem readEntries_entries {levels : Nat} {subs : List Fulfillment} {flags : List Bool}
    {bytes : Bytes} (inner : ∀ sub, (sub, true) ∈ subs.zip flags → ReadBack levels sub)
    (consistent : ∀ sub ∈ subs, sub.condition.Consistent) (long : flags.length = subs.length)
    (written : entries subs flags = .ok bytes) (small : bytes.length < 2 ^ 64) (rest : Bytes) :
    readEntries (ofPayload levels) subs.length (bytes ++ rest) =
      if entriesDepth subs flags ≤ levels then .ok ((receivedParts subs flags).zip flags, rest)
      else .error tooDeep := by
  induction subs generalizing flags bytes with
  | nil =>
    obtain rfl := List.eq_nil_of_length_eq_zero long
    cases written
    rfl
  | cons sub subs ih =>
    obtain ⟨flag, flags, rfl⟩ := List.exists_cons_of_length_eq_add_one long
    rw [List.forall_mem_cons] at consistent
    have below sub (mem : (sub, true) ∈ subs.zip flags) := inner sub (List.mem_cons_of_mem _ mem)
    cases flag with
    | false =>
      obtain ⟨more, others, rfl⟩ := entries_false.1 written
      rw [List.length_append] at small
      have tail := ih below consistent.2 (Nat.succ.inj long) others (by omega)
      have head := @readEntry_hidden (ofPayload levels) sub.commitment consistent.1 (more ++ rest)
      have all := readEntries_succ_of_ite (p := True) (head.trans (if_pos trivial).symm) tail
      rw [List.length_cons, List.append_assoc, entriesDepth, all]
      exact if_congr (iff_of_eq (true_and _)) rfl rfl
    | true =>
      obtain ⟨shown, more, paid, others, rfl⟩ := entries_true.1 written
      rw [List.length_append, Threshold.revealedEntry_length, Threshold.revealedLength,
        Wire.octetsLength] at small
      have fits : (frame sub.type shown).length < 2 ^ 64 := by omega
      have tail := ih below consistent.2 (Nat.succ.inj long) others (by omega)
      have head := @readEntry_revealed (ofPayload levels) sub.commitment sub.type shown fits
        (more ++ rest)
      rw [frame_length, Wire.octetsLength] at fits
      rw [inner sub List.mem_cons_self shown paid (by omega), outcome,
        apply_ite (Except.map _)] at head
      rw [List.length_cons, List.append_assoc, entriesDepth, readEntries_succ_of_ite head tail]
      exact if_congr (by omega) rfl rfl

theorem ofPrefix_received {lead : Bytes} {sub : Fulfillment} {c : Condition}
    (made : ofPrefix lead sub = .ok (prefixed Weight.one lead sub c)) :
    ofPrefix lead sub.received = .ok (prefixed Weight.one lead sub.received c) := by
  obtain ⟨fits, same⟩ := ofPrefix_eq_ok.1 made
  cases same
  exact ofPrefix_eq_ok.2 ⟨by rw [condition_received]; exact fits, by rw [condition_received]⟩

theorem ofThresholdPayload_entries {levels : Nat} {needed : UInt32} {subs : List Fulfillment}
    {flags : List Bool} {c : Condition} {bytes : Bytes} (parts : ∀ sub ∈ subs, sub.WellFormed)
    (assembled : Assembled needed subs (.revealed flags) c)
    (written : entries subs flags = .ok bytes)
    (inner : ∀ sub, (sub, true) ∈ subs.zip flags → ReadBack levels sub) :
    ofThresholdPayload (ofPayload levels) (Threshold.header needed subs.length ++ bytes) =
      if entriesDepth subs flags ≤ levels then
        .ok (threshold Weight.one needed (receivedParts subs flags) (.revealed flags) c)
      else .error tooDeep := by
  have long := (assembled.revealing flags rfl).length_eq
  have fits := assembled.entries_fit written
  have listed := readEntries_entries inner (fun sub mem => (parts sub mem).condition.1) long
    written (by unfold Threshold.maxPayload at fits; omega) []
  rw [List.append_nil] at listed
  have together := @readThreshold_header (ofPayload levels) needed _ assembled.shape bytes
  rw [listed] at together
  rw [ofThresholdPayload, if_neg (by rw [List.length_append, Threshold.header_length]; omega)]
  by_cases shallow : entriesDepth subs flags ≤ levels
  · rw [if_pos shallow] at together ⊢
    have again := assembled.received fun sub shown mem paid =>
      ((parts sub (List.of_mem_zip mem).1).written paid).payload_received
    rw [bind_of_ok (whole_of_ok together)]
    dsimp only
    rw [UInt32.ofNat_toNat]
    exact ofEntries_zip again
  · rw [if_neg shallow] at together ⊢
    rw [bind_of_error (whole_of_error together)]

theorem Written.readBack {f : Fulfillment} {shown : Bytes} (h : f.Written shown)
    (small : shown.length < 2 ^ 64) (levels : Nat) :
    ofPayload levels f.type.id shown = outcome levels f := by
  induction levels generalizing f shown with
  | zero => rfl
  | succ levels ih =>
    rw [ofPayload_succ, outcome]
    cases h with
    | preimage w bytes =>
      rw [if_pos (by simp [shownDepth])]
      rfl
    | @prefixed w lead inner sub c made part =>
      rw [List.length_append, Wire.octets_length, frame_length, Wire.octetsLength,
        Wire.octetsLength] at small
      have below := ih part (by omega)
      change ofPrefixPayload (ofPayload levels) (Wire.octets lead ++ frame sub.type inner) = _
      rw [ofPrefixPayload_frame sub.type (by omega) (by omega), below, outcome, shownDepth]
      by_cases shallow : sub.shownDepth < levels
      · rw [if_pos shallow, if_pos (by omega)]
        exact ofPrefix_received made
      · rw [if_neg shallow, if_neg (by omega)]
        rfl
    | ed25519 w key signature =>
      rw [if_pos (by simp [shownDepth])]
      exact ofEd25519Payload_octets key signature
    | rsa w key long signature =>
      rw [if_pos (by simp [shownDepth])]
      exact ofRsaPayload_octets key long signature
    | threshold parts assembled written inner =>
      simp only [type, received, shownDepth, Nat.lt_succ_iff]
      exact ofThresholdPayload_entries parts assembled written fun sub mem shown paid small =>
        ih (inner sub shown mem paid) small
    | timeout w expiry =>
      rw [if_pos (by simp [shownDepth])]
      exact ofTimeoutPayload_expiryBytes expiry

section Root

variable {f : Fulfillment}

theorem outcome_root {levels : Nat} :
    (∃ d, outcome (levels + 1) f = .ok d) ↔ ∀ depth g, f.Carries depth g → depth ≤ levels := by
  rw [carries_le_iff, outcome]
  by_cases shallow : f.shownDepth < levels + 1
  · rw [if_pos shallow]
    exact ⟨fun _ => Nat.le_of_lt_succ shallow, fun _ => ⟨_, rfl⟩⟩
  · rw [if_neg shallow]
    constructor
    · rintro ⟨_, same⟩
      cases same
    · intro le
      exact absurd (Nat.lt_succ_of_le le) shallow

theorem outcome_eq_ok {levels : Nat} {d : Fulfillment} (ok : outcome levels f = .ok d) :
    d = f.received := by
  unfold outcome at ok
  split at ok
  · exact (Except.ok.inj ok).symm
  · cases ok

end Root

section Sent

variable {f : Fulfillment} {shown : Bytes}

theorem Written.ofRoot_received (h : f.Written shown) (small : shown.length < 2 ^ 64)
    (shallow : f.shownDepth ≤ maxNesting) : ofRoot f.type.id shown = .ok f.received := by
  rw [ofRoot, h.readBack small, outcome, if_pos (Nat.lt_succ_of_le shallow)]

theorem Written.uri_received (h : f.Written shown) (small : shown.length < 2 ^ 64)
    (shallow : f.shownDepth ≤ maxNesting) :
    ∃ text, f.uri = .ok text ∧ ofUri text = .ok f.received :=
  ⟨_, by rw [uri, bind_of_ok h.payload_eq]; rfl,
    ofUri_format.trans (h.ofRoot_received small shallow)⟩

end Sent

/-- Only a preimage, and a prefix over one, can be too long for a frame. -/
def isShort (f : Fulfillment) : Bool :=
  match f.type with
  | .preimage | .prefixed => false
  | _ => true

theorem Written.length_lt {f : Fulfillment} {shown : Bytes} (h : f.Written shown)
    (short : f.isShort = true) : shown.length < 2 ^ 64 := by
  cases h with
  | preimage => cases short
  | prefixed => cases short
  | ed25519 w key signature =>
    rw [List.length_append, key.octets.length_eq, signature.length_eq]
    decide
  | rsa w key long signature =>
    have most := key.modulus.length_le
    unfold Rsa.maxLength at most
    rw [List.length_append, Rsa.Modulus.bytes_length, signature.length_eq]
    omega
  | threshold parts assembled written =>
    exact Nat.lt_of_le_of_lt (assembled.length_le written) (by decide)
  | timeout w expiry =>
    have width : byteWidth expiry.toNat ≤ 8 := byteWidth_le expiry.toNat_lt (by decide)
    rw [expiryBytes, Wire.uint_length, Wire.uintLength, Wire.octetsLength, Wire.lengthWidth,
      if_pos (by omega)]
    omega

theorem Written.received_of_ok {f d : Fulfillment} {shown : Bytes} (h : f.Written shown)
    {levels : Nat} (ok : ofPayload levels f.type.id shown = .ok d) : d = f.received := by
  have known (short : f.isShort = true) : d = f.received :=
    outcome_eq_ok ((h.readBack (h.length_lt short) levels).symm.trans ok)
  cases levels with
  | zero => cases ok
  | succ levels =>
    rw [ofPayload_succ] at ok
    cases h with
    | preimage w bytes =>
      cases ok
      rfl
    | @prefixed w lead inner sub c made part =>
      change ofPrefixPayload (ofPayload levels) (Wire.octets lead ++ frame sub.type inner) = _ at ok
      have short : lead.length < 2 ^ 64 := by
        have fits := (ofPrefix_eq_ok.1 made).1
        rw [Wire.octetsLength] at fits
        omega
      have small := ofPrefixPayload_small short ok
      rw [ofPrefixPayload_frame sub.type short small] at ok
      obtain ⟨g, read, again⟩ := bind_eq_ok.1 ok
      have below := outcome_eq_ok ((part.readBack small levels).symm.trans read)
      rw [below, ofPrefix_received made] at again
      exact (Except.ok.inj again).symm
    | _ => exact known rfl

/-- Put together from nothing that was read. -/
def Constructed (f : Fulfillment) : Prop :=
  Built (fun _ => False) f

theorem Constructed.wellFormed {f : Fulfillment} (h : f.Constructed) : f.WellFormed :=
  Built.wellFormed (fun _ => False.elim) h

/-- What can be revealed is read back from bytes and URI alike, unless it is nested too deeply, and
is then the same as far as it was shown. -/
theorem read_back_of_constructed {f : Fulfillment} (built : f.Constructed)
    (can : f.canReveal = true) :
    ∃ shown bytes uri, f.payload = .ok shown ∧ f.binary = .ok bytes ∧ f.uri = .ok uri ∧
      (shown.length < 2 ^ 64 →
        ((∃ d, ofBinary bytes = .ok d) ↔ ∀ depth g, f.Carries depth g → depth ≤ maxNesting) ∧
        ((∃ d, ofUri uri = .ok d) ↔ ∀ depth g, f.Carries depth g → depth ≤ maxNesting) ∧
        ∀ d, ofBinary bytes = .ok d ∨ ofUri uri = .ok d →
          d.condition = f.condition ∧ d.payload = .ok shown ∧ f.ShownAlike d) := by
  have wellFormed := built.wellFormed
  obtain ⟨shown, paid⟩ := wellFormed.payload can
  have written := wellFormed.written paid
  refine ⟨shown, frame f.type shown, _, paid, binary_eq_ok.2 ⟨shown, paid, rfl⟩,
    by rw [uri, bind_of_ok paid]; rfl, fun small => ?_⟩
  have root : ofRoot f.type.id shown = outcome (maxNesting + 1) f :=
    written.readBack small (maxNesting + 1)
  rw [ofBinary_frame small, ofUri_format, root]
  refine ⟨outcome_root, outcome_root, ?_⟩
  intro d found
  obtain rfl := outcome_eq_ok (or_self_iff.1 found)
  exact ⟨condition_received f, written.payload_received, written.shownAlike_received⟩

/-- A preimage of weight two, and the condition of another one. -/
def sampleParts : List Fulfillment :=
  [preimage ⟨2, by decide⟩ [1], withheld (preimage Weight.one []).commitment]

def sampleWeight : Weight := ⟨2, by decide⟩

theorem condition_sampleParts :
    ∃ c, Threshold.condition 2 (sampleParts.map commitment) = .ok c := by
  have size : Threshold.size 2 (sampleParts.map commitment) = .ok 57 := by decide +kernel
  exact ⟨_, by rw [Threshold.condition, bind_of_ok size]; rfl⟩

theorem ofThreshold_sampleParts : ∃ c, ofThreshold 2 sampleParts =
    .ok (.threshold Weight.one 2 sampleParts (.revealed [true, false]) c) := by
  obtain ⟨c, conditioned⟩ := condition_sampleParts
  have selected : Threshold.select 2 (sampleParts.map fun sub => share sub.commitment sub) =
      .revealed [true, false] := by decide +kernel
  have sorted : (sampleParts.map commitment).Pairwise fun a b => a.precedes b = true := by
    simp [sampleParts, Commitment.precedes_iff]
    decide
  have made := ofThreshold_of_sorted rfl sorted conditioned
  rw [selected] at made
  exact ⟨c, made⟩

theorem built_sampleParts {given : Fulfillment → Prop} : ∀ sub ∈ sampleParts, Built given sub := by
  have first := Built.weighted ⟨2, by decide⟩ (@Built.preimage given [1])
  exact List.forall_mem_cons.2 ⟨first, List.forall_mem_singleton.2 (Built.preimage []).reduced⟩

theorem exists_constructed : ∃ c,
    Constructed (.threshold Weight.one 2 sampleParts (.revealed [true, false]) c) := by
  obtain ⟨c, made⟩ := ofThreshold_sampleParts
  exact ⟨c, Built.threshold built_sampleParts made⟩

theorem read_back_of_constructed_sample : ∃ f : Fulfillment, f.Constructed ∧ f.canReveal = true ∧
    ∃ shown bytes uri, f.payload = .ok shown ∧ f.binary = .ok bytes ∧ f.uri = .ok uri ∧
      (shown.length < 2 ^ 64 →
        ((∃ d, ofBinary bytes = .ok d) ↔ ∀ depth g, f.Carries depth g → depth ≤ maxNesting) ∧
        ((∃ d, ofUri uri = .ok d) ↔ ∀ depth g, f.Carries depth g → depth ≤ maxNesting) ∧
        ∀ d, ofBinary bytes = .ok d ∨ ofUri uri = .ok d →
          d.condition = f.condition ∧ d.payload = .ok shown ∧ f.ShownAlike d) := by
  obtain ⟨c, built⟩ := exists_constructed
  exact ⟨_, built, rfl, read_back_of_constructed built rfl⟩

end CryptoConditions.Fulfillment
