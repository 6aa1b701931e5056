import CryptoConditions.Proofs.Fulfillment.Layout

/-! What is read keeps the invariant of what is put together, shows only keys
with the fixed exponent, and takes as many bytes when it is written again. -/

namespace CryptoConditions.Fulfillment

mutual

def rsaKeys : Fulfillment → List Rsa.PublicKey
  | rsa _ key _ _ => [key]
  | prefixed _ _ sub _ => sub.rsaKeys
  | threshold _ _ subs _ _ => rsaKeysOf subs
  | preimage .. | ed25519 .. | timeout .. | withheld _ => []

def rsaKeysOf : List Fulfillment → List Rsa.PublicKey
  | [] => []
  | sub :: subs => sub.rsaKeys ++ rsaKeysOf subs

end

theorem rsaKeysOf_eq (subs : List Fulfillment) : rsaKeysOf subs = subs.flatMap rsaKeys := by
  induction subs with
  | nil => rfl
  | cons sub subs ih => rw [rsaKeysOf, ih, List.flatMap_cons]

/-- All RSA keys have the exponent that a modulus stands for. -/
def StandardKeys (f : Fulfillment) : Prop :=
  ∀ key ∈ f.rsaKeys, key.exponent = Rsa.publicExponent

@[simp] theorem standardKeys_withWeight (w : Weight) (f : Fulfillment) :
    (f.withWeight w).StandardKeys ↔ f.StandardKeys := by
  cases f <;> simp only [StandardKeys, withWeight, rsaKeys]

theorem standardKeys_of_none {f : Fulfillment} (none : f.rsaKeys = []) : f.StandardKeys := by
  rw [StandardKeys, none]
  exact List.forall_mem_nil _

theorem standardKeys_prefixed {w : Weight} {lead : Bytes} {sub : Fulfillment} {c : Condition} :
    (prefixed w lead sub c).StandardKeys ↔ sub.StandardKeys := by
  simp only [StandardKeys, rsaKeys]

theorem standardKeys_rsa {w : Weight} {key : Rsa.PublicKey}
    {long : Rsa.minLength ≤ key.modulus.length} {signature : Option (Octets key.modulus.length)} :
    (rsa w key long signature).StandardKeys ↔ key.exponent = Rsa.publicExponent := by
  simp only [StandardKeys, rsaKeys, List.forall_mem_singleton]

theorem standardKeys_threshold {w : Weight} {needed : UInt32} {subs : List Fulfillment}
    {selection : Selection} {c : Condition} :
    (threshold w needed subs selection c).StandardKeys ↔ ∀ sub ∈ subs, sub.StandardKeys := by
  simp only [StandardKeys, rsaKeys, rsaKeysOf_eq, List.mem_flatMap]
  constructor
  · intro all sub inside key mem
    exact all key ⟨sub, inside, mem⟩
  · rintro all key ⟨sub, inside, mem⟩
    exact all sub inside key mem

structure ReadFrom (type : Nat) (payload : Bytes) (f : Fulfillment) : Prop where
  type_eq : f.type.id = type
  wellFormed : f.WellFormed
  standard : f.StandardKeys
  again : ∃ shown, f.payload = .ok shown ∧ shown.length = payload.length

/-- A way to read payloads that reads only what it should. -/
def Faithful (read : PayloadReader) : Prop :=
  ∀ type payload f, read type payload = .ok f → ReadFrom type payload f

theorem readFrame_ok {read : PayloadReader} {bytes : Bytes} {f : Fulfillment}
    (faithful : Faithful read) (ok : whole (readFrame read) bytes = .ok f) :
    ∃ payload, bytes = frame f.type payload ∧ payload.length < 2 ^ 64 ∧
      read f.type.id payload = .ok f := by
  simp only [whole_eq_ok, readFrame, readOctets, step_bind_eq_ok, Wire.Reader.orThrow_eq_ok] at ok
  obtain ⟨type, _, first, payload, _, second, made⟩ := ok
  obtain ⟨rfl, _⟩ := Wire.Reader.fixed_ok first
  obtain ⟨rfl, small⟩ := Wire.Reader.octets_ok second
  obtain ⟨done, rfl⟩ := step_lift_eq_ok.1 made
  obtain rfl := (faithful type payload f done).type_eq
  exact ⟨payload, by rw [frame, List.append_nil], small, done⟩

def entryLength (entry : Fulfillment × Bool) : Nat :=
  if entry.2 then
    match entry.1.payload with
    | .ok shown => Threshold.revealedLength entry.1.commitment (frame entry.1.type shown).length
    | .error _ => 0
  else Threshold.hiddenLength entry.1.commitment

structure SoundEntry (entry : Fulfillment × Bool) : Prop where
  wellFormed : entry.1.WellFormed
  standard : entry.1.StandardKeys
  shown : entry.2 = true → ∃ bytes, entry.1.payload = .ok bytes

theorem entryLength_true {sub : Fulfillment} {shown : Bytes} (written : sub.payload = .ok shown) :
    entryLength (sub, true) =
      Threshold.revealedLength sub.commitment (frame sub.type shown).length := by
  simp only [entryLength, written, if_true]

theorem entries_written (list : List (Fulfillment × Bool))
    (sound : ∀ entry ∈ list, SoundEntry entry) :
    ∃ bytes, entries (list.map Prod.fst) (list.map Prod.snd) = .ok bytes ∧
      bytes.length = (list.map entryLength).sum := by
  induction list with
  | nil => exact ⟨[], by simp [entries], rfl⟩
  | cons entry list ih =>
    rw [List.forall_mem_cons] at sound
    obtain ⟨rest, written, length⟩ := ih sound.2
    obtain ⟨sub, flag⟩ := entry
    cases flag with
    | false =>
      refine ⟨_, entries_false.2 ⟨rest, written, rfl⟩, ?_⟩
      rw [List.length_append, Threshold.hiddenEntry_length, length]
      rfl
    | true =>
      obtain ⟨shown, paid⟩ := sound.1.shown rfl
      refine ⟨_, entries_true.2 ⟨shown, rest, paid, written, rfl⟩, ?_⟩
      rw [List.length_append, Threshold.revealedEntry_length, length, List.map_cons, List.sum_cons,
        entryLength_true paid]

theorem Entry.ReadAs.sound {read : PayloadReader} {entry : Entry} {found : Fulfillment × Bool}
    (faithful : Faithful read) (readAs : entry.ReadAs read found) :
    SoundEntry found ∧ entry.bytes.length = entryLength found := by
  cases readAs with
  | hidden consistent =>
    refine ⟨⟨.withheld consistent, standardKeys_of_none (by simp only [rsaKeys]), nofun⟩, ?_⟩
    exact Threshold.hiddenEntry_length ⟨_, _, none⟩
  | @revealed weight binary sub inner =>
    obtain ⟨payload, rfl, _, read⟩ := readFrame_ok faithful inner
    have kept := faithful _ _ _ read
    obtain ⟨again, written, length⟩ := kept.again
    have written' : (sub.withWeight weight).payload = .ok again := by
      rw [payload_withWeight, written]
    refine ⟨⟨kept.wellFormed.withWeight weight,
      (standardKeys_withWeight weight sub).2 kept.standard, fun _ => ⟨again, written'⟩⟩, ?_⟩
    rw [entryLength_true written', type_withWeight, frame_length, length, ← frame_length sub.type,
      ← Threshold.revealedEntry_length, Threshold.revealedEntry, commitment_withWeight, bytes]

theorem sound_of_listed {read : PayloadReader} (faithful : Faithful read) {entries : List Entry}
    {list : List (Fulfillment × Bool)} (listed : List.Forall₂ (Entry.ReadAs read) entries list) :
    (∀ found ∈ list, SoundEntry found) ∧
      (entries.flatMap Entry.bytes).length = (list.map entryLength).sum := by
  induction listed with
  | nil => exact ⟨List.forall_mem_nil _, rfl⟩
  | cons readAs _ ih =>
    obtain ⟨sound, length⟩ := readAs.sound faithful
    refine ⟨List.forall_mem_cons.2 ⟨sound, ih.1⟩, ?_⟩
    rw [List.flatMap_cons, List.length_append, List.map_cons, List.sum_cons, length, ih.2]

theorem zip_unzipped {α β : Type} (list : List (α × β)) :
    (list.map Prod.fst).zip (list.map Prod.snd) = list := by
  rw [← List.unzip_fst, ← List.unzip_snd, List.zip_unzip]

theorem readFrom_of_entries {needed : UInt32} {order : List (Fulfillment × Bool)} {c : Condition}
    {payload : Bytes} (sound : ∀ entry ∈ order, SoundEntry entry)
    (shape : Threshold.checkShape needed order.length = .ok ())
    (enough : needed.toNat ≤ revealedWeight order)
    (sorted : ((order.map Prod.fst).map commitment).Pairwise fun a b => a.precedes b = true)
    (conditioned : Threshold.condition needed ((order.map Prod.fst).map commitment) = .ok c)
    (length : payload.length = Threshold.headerLength order.length + (order.map entryLength).sum)
    (fits : payload.length ≤ Threshold.maxPayload) :
    ReadFrom 2 payload
      (threshold Weight.one needed (order.map Prod.fst) (.revealed (order.map Prod.snd)) c) := by
  obtain ⟨shown, written, total⟩ := entries_written order sound
  have parts : ∀ sub ∈ order.map Prod.fst, sub.WellFormed ∧ sub.StandardKeys := by
    intro sub mem
    obtain ⟨entry, inside, rfl⟩ := List.mem_map.1 mem
    exact ⟨(sound entry inside).wellFormed, (sound entry inside).standard⟩
  have assembled : Assembled needed (order.map Prod.fst) (.revealed (order.map Prod.snd)) c := by
    refine ⟨by rw [List.length_map]; exact shape, sorted, conditioned, ?_⟩
    intro flags revealed
    cases revealed
    refine ⟨by simp, by rw [zip_unzipped]; exact enough, shown, written, ?_⟩
    rw [List.length_map, total, ← length]
    exact fits
  have wellFormed : (threshold Weight.one needed (order.map Prod.fst)
      (.revealed (order.map Prod.snd)) c).WellFormed :=
    .threshold (fun sub mem => (parts sub mem).1) assembled
  refine ⟨rfl, wellFormed, standardKeys_threshold.2 fun sub mem => (parts sub mem).2,
    Threshold.header needed (order.map Prod.fst).length ++ shown,
    payload_revealed_eq_ok.2 ⟨shown, written, rfl⟩, ?_⟩
  · rw [List.length_append, Threshold.header_length, List.length_map, total, length]

theorem Parsed.readFrom {read : PayloadReader} (faithful : Faithful read) {payload : Bytes}
    {f : Fulfillment} (parsed : Parsed read payload f) : ReadFrom f.type.id payload f := by
  cases parsed with
  | preimage =>
    exact ⟨rfl, .preimage _ _, standardKeys_of_none (by simp only [rsaKeys]), payload,
      by simp only [Fulfillment.payload], rfl⟩
  | @prefixed lead _ sub _ short inner made =>
    obtain ⟨payload, rfl, _, read⟩ := readFrame_ok faithful inner
    have kept := faithful _ _ _ read
    obtain ⟨shown, written, length⟩ := kept.again
    refine ⟨rfl, .prefixed kept.wellFormed made, standardKeys_prefixed.2 kept.standard,
      Wire.octets lead ++ frame sub.type shown,
      payload_prefixed_eq_ok.2 ⟨shown, written, rfl⟩, ?_⟩
    simp [length]
  | ed25519 key signature =>
    exact ⟨rfl, .ed25519 _ _ _, standardKeys_of_none (by simp only [rsaKeys]), _,
      by simp only [Fulfillment.payload], rfl⟩
  | rsa modulus long signature =>
    exact ⟨rfl, .rsa _ _ _ _, standardKeys_rsa.2 rfl, _, by simp only [Fulfillment.payload], rfl⟩
  | threshold fits listed made =>
    obtain ⟨sound, length⟩ := sound_of_listed faithful listed
    obtain ⟨order, c, same, perm, shape, enough, sorted, conditioned, _⟩ := ofEntries_eq_ok made
    cases same
    refine readFrom_of_entries (fun found mem => sound found (perm.mem_iff.1 mem)) shape enough
      sorted conditioned ?_ fits
    rw [listing, List.length_append, Threshold.header_length, length, listed.length_eq,
      perm.length_eq, (perm.map entryLength).sum_nat]
  | timeout expiry =>
    exact ⟨rfl, .timeout _ _, standardKeys_of_none (by simp only [rsaKeys]), _,
      by simp only [Fulfillment.payload], rfl⟩

theorem ofPayload_faithful (levels : Nat) : Faithful (ofPayload levels) := by
  induction levels with
  | zero =>
    intro type payload f ok
    cases ok
  | succ levels ih =>
    intro type payload f ok
    obtain ⟨rfl, parsed⟩ := ofPayload_ok ok
    exact parsed.readFrom ih

/-- What reading bytes or a URI gives, at whatever level. -/
def Decoded (f : Fulfillment) : Prop :=
  ∃ levels type payload, ofPayload levels type payload = .ok f

theorem decoded_of_ofUri {uri : String} {f : Fulfillment} (ok : ofUri uri = .ok f) : f.Decoded := by
  unfold ofUri at ok
  split at ok
  · cases ok
  · exact ⟨_, _, _, ok⟩

theorem decoded_of_ofBinary {bytes : Bytes} {f : Fulfillment} (ok : ofBinary bytes = .ok f) :
    f.Decoded := by
  obtain ⟨payload, _, _, root⟩ := readFrame_ok (ofPayload_faithful (maxNesting + 1)) ok
  exact ⟨_, _, payload, root⟩

theorem Decoded.wellFormed {f : Fulfillment} (h : f.Decoded) : f.WellFormed := by
  obtain ⟨levels, type, payload, ok⟩ := h
  exact (ofPayload_faithful levels type payload f ok).wellFormed

theorem Decoded.standardKeys {f : Fulfillment} (h : f.Decoded) : f.StandardKeys := by
  obtain ⟨levels, type, payload, ok⟩ := h
  exact (ofPayload_faithful levels type payload f ok).standard

/-- Put together, from what was read or from nothing. -/
def Obtained (f : Fulfillment) : Prop :=
  Built Decoded f

theorem Obtained.wellFormed {f : Fulfillment} (h : f.Obtained) : f.WellFormed :=
  Built.wellFormed (fun _ => Decoded.wellFormed) h

end CryptoConditions.Fulfillment
