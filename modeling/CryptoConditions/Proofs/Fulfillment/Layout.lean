import CryptoConditions.Proofs.Fulfillment.Built
import CryptoConditions.Proofs.Key.Rsa

/-! How payloads are laid out. A payload that is read is the one written form of what
it is read as, up to the order of the entries of a threshold; and what a threshold
lists can be told from its bytes alone. -/

namespace CryptoConditions.Fulfillment

theorem whole_eq_ok {α : Type} {step : Step α} {bytes : Bytes} {a : α} :
    whole step bytes = .ok a ↔ step bytes = .ok (a, []) := by
  simp only [whole, bind_eq_ok, pure_eq_ok]
  constructor
  · rintro ⟨⟨b, rest⟩, taken, ⟨_, _⟩, ended, same⟩
    cases same
    have empty : rest = [] := Wire.Reader.finish_ok (Wire.Reader.orThrow_eq_ok.1 ended)
    rw [taken, empty]
  · intro taken
    exact ⟨(a, []), taken, ((), []), rfl, rfl⟩

theorem frame_injective {type other : ConditionType} {payload shown : Bytes}
    (same : frame type payload = frame other shown) : type = other ∧ payload = shown := by
  obtain ⟨types, octets⟩ := List.append_inj same (by simp)
  exact ⟨ConditionType.bytes_injective types, Wire.octets_injective octets⟩

/-- An entry in the payload of a threshold: the binary form of a part, or its condition. -/
inductive Entry where
  | revealed (weight : Weight) (binary : Bytes)
  | hidden (weight : Weight) (condition : Condition)
deriving DecidableEq

namespace Entry

def bytes : Entry → Bytes
  | revealed weight binary => Wire.uint weight.toNat ++ Wire.octets binary ++ Wire.octets []
  | hidden weight condition =>
    Wire.uint weight.toNat ++ Wire.octets [] ++ Wire.octets condition.binary

inductive ReadAs (read : PayloadReader) : Entry → Fulfillment × Bool → Prop where
  | revealed {weight : Weight} {binary : Bytes} {sub : Fulfillment}
      (inner : whole (readFrame read) binary = .ok sub) :
      ReadAs read (.revealed weight binary) (sub.withWeight weight, true)
  | hidden {weight : Weight} {condition : Condition} (consistent : condition.Consistent) :
      ReadAs read (.hidden weight condition) (withheld ⟨condition, weight, none⟩, false)

theorem bytes_ne_nil (entry : Entry) : entry.bytes ≠ [] := by
  cases entry <;> simp [bytes, Wire.uint, Wire.octets, minimalBigEndian_ne_nil]

theorem length_le_flatMap (entries : List Entry) :
    entries.length ≤ (entries.flatMap bytes).length := by
  induction entries with
  | nil => exact Nat.le_refl 0
  | cons entry entries ih =>
    have pos := List.length_pos_iff.2 entry.bytes_ne_nil
    rw [List.flatMap_cons, List.length_append, List.length_cons]
    omega

theorem raw_append_inj {m n : Nat} {a b c d r s : Bytes} (fits : m < 2 ^ 64) (fits' : n < 2 ^ 64)
    (same : Wire.uint m ++ Wire.octets a ++ Wire.octets b ++ r =
      Wire.uint n ++ Wire.octets c ++ Wire.octets d ++ s)
    (small : (Wire.uint m ++ Wire.octets a ++ Wire.octets b ++ r).length < 2 ^ 64) :
    m = n ∧ a = c ∧ b = d ∧ r = s := by
  have small' := small
  rw [same] at small'
  simp only [List.length_append, Wire.octets_length, Wire.octetsLength] at small small'
  simp only [List.append_assoc] at same
  obtain ⟨numbers, same⟩ := Wire.uint_append_inj fits fits' same
  obtain ⟨first, same⟩ := Wire.octets_append_inj (by omega) (by omega) same
  obtain ⟨second, rest⟩ := Wire.octets_append_inj (by omega) (by omega) same
  exact ⟨numbers, first, second, rest⟩

private theorem fields_append_inj {v w : Weight} {a b c d r s : Bytes}
    (same : Wire.uint v.toNat ++ Wire.octets a ++ Wire.octets b ++ r =
      Wire.uint w.toNat ++ Wire.octets c ++ Wire.octets d ++ s)
    (small : (Wire.uint v.toNat ++ Wire.octets a ++ Wire.octets b ++ r).length < 2 ^ 64) :
    v = w ∧ a = c ∧ b = d ∧ r = s := by
  have bound (u : Weight) : u.toNat < 2 ^ 64 := Nat.lt_trans u.toNat_lt (by decide)
  obtain ⟨weights, rest⟩ := raw_append_inj (bound v) (bound w) same small
  exact ⟨Weight.toNat_injective weights, rest⟩

theorem bytes_append_inj {a b : Entry} {r s : Bytes} (same : a.bytes ++ r = b.bytes ++ s)
    (small : (a.bytes ++ r).length < 2 ^ 64) : a = b ∧ r = s := by
  cases a with
  | revealed weight binary =>
    cases b with
    | revealed other more =>
      obtain ⟨weights, binaries, _, rest⟩ := fields_append_inj same small
      exact ⟨by rw [weights, binaries], rest⟩
    | hidden other condition =>
      obtain ⟨_, _, empty, _⟩ := fields_append_inj same small
      exact absurd empty.symm condition.binary_ne_nil
  | hidden weight condition =>
    cases b with
    | revealed other more =>
      obtain ⟨_, _, empty, _⟩ := fields_append_inj same small
      exact absurd empty condition.binary_ne_nil
    | hidden other more =>
      obtain ⟨weights, _, binaries, rest⟩ := fields_append_inj same small
      exact ⟨by rw [weights, Condition.binary_injective binaries], rest⟩

theorem flatMap_bytes_inj {entries others : List Entry} (long : entries.length = others.length)
    (same : entries.flatMap bytes = others.flatMap bytes)
    (small : (entries.flatMap bytes).length < 2 ^ 64) : entries = others := by
  induction entries generalizing others with
  | nil => exact (List.eq_nil_of_length_eq_zero long.symm).symm
  | cons entry entries ih =>
    obtain ⟨other, others, rfl⟩ := List.exists_cons_of_length_eq_add_one long.symm
    rw [List.flatMap_cons, List.flatMap_cons] at same
    rw [List.flatMap_cons] at small
    obtain ⟨rfl, tails⟩ := bytes_append_inj same small
    rw [List.length_append] at small
    rw [ih (Nat.succ.inj long) tails (by omega)]

end Entry

def listing (needed : UInt32) (entries : List Entry) : Bytes :=
  Threshold.header needed entries.length ++ entries.flatMap Entry.bytes

theorem listing_inj {needed other : UInt32} {entries others : List Entry}
    (same : listing needed entries = listing other others)
    (small : (listing needed entries).length < 2 ^ 64) : needed = other ∧ entries = others := by
  have small' := small
  rw [same] at small'
  simp only [listing, List.length_append] at small small'
  have few := Entry.length_le_flatMap entries
  have few' := Entry.length_le_flatMap others
  obtain ⟨numbers, long, same⟩ := Threshold.header_append_inj (by omega) (by omega) same
  exact ⟨numbers, Entry.flatMap_bytes_inj long same (by omega)⟩

theorem length_lt_of_mem {needed : UInt32} {entries : List Entry} {weight : Weight} {binary : Bytes}
    (mem : .revealed weight binary ∈ entries) (small : (listing needed entries).length < 2 ^ 64) :
    binary.length < 2 ^ 64 := by
  obtain ⟨front, back, rfl⟩ := List.append_of_mem mem
  simp only [listing, List.flatMap_append, List.flatMap_cons, Entry.bytes, List.length_append,
    Wire.octets_length, Wire.octetsLength] at small
  omega

section Entries

variable {read : PayloadReader}

theorem readEntry_ok {bytes rest : Bytes} {found : Fulfillment × Bool}
    (ok : readEntry read bytes = .ok (found, rest)) :
    ∃ entry : Entry, bytes = entry.bytes ++ rest ∧ entry.ReadAs read found := by
  simp only [readEntry, readUint, readOctets, step_bind_eq_ok, Wire.Reader.orThrow_eq_ok] at ok
  obtain ⟨weight, _, first, ok⟩ := ok
  obtain ⟨rfl, _⟩ := Wire.Reader.uint_ok first
  split at ok
  · simp only [step_bind_eq_ok] at ok
    obtain ⟨_, _, thrown, _⟩ := ok
    cases thrown
  · simp only [step_bind_eq_ok, Wire.Reader.orThrow_eq_ok] at ok
    obtain ⟨shown, _, second, hidden, _, third, ok⟩ := ok
    obtain ⟨rfl, _⟩ := Wire.Reader.octets_ok second
    obtain ⟨rfl, _⟩ := Wire.Reader.octets_ok third
    -- Just one of the two octet strings has bytes: a fulfillment is in the first, a condition in
    -- the second.
    cases shown with
    | nil =>
      cases hidden with
      | nil => cases ok
      | cons byte tail =>
        simp only [step_bind_eq_ok, step_pure_eq_ok] at ok
        obtain ⟨c, _, whole, w, _, weighed, same⟩ := ok
        obtain ⟨inner, rfl⟩ := step_lift_eq_ok.1 whole
        obtain ⟨weight_eq, rfl⟩ := step_lift_eq_ok.1 weighed
        cases same
        obtain ⟨form, consistent⟩ := Condition.ofBinary_ok inner
        refine ⟨.hidden w c, ?_, .hidden consistent⟩
        rw [Entry.bytes, Weight.toNat_of_ofNat weight_eq, form]
        simp only [List.append_assoc]
    | cons byte tail =>
      cases hidden with
      | cons _ _ => cases ok
      | nil =>
        simp only [step_bind_eq_ok, step_pure_eq_ok] at ok
        obtain ⟨sub, _, whole, w, _, weighed, same⟩ := ok
        obtain ⟨inner, rfl⟩ := step_lift_eq_ok.1 whole
        obtain ⟨weight_eq, rfl⟩ := step_lift_eq_ok.1 weighed
        cases same
        refine ⟨.revealed w (byte :: tail), ?_, .revealed inner⟩
        rw [Entry.bytes, Weight.toNat_of_ofNat weight_eq]
        simp only [List.append_assoc]

theorem readEntries_ok {count : Nat} {bytes rest : Bytes} {list : List (Fulfillment × Bool)}
    (ok : readEntries read count bytes = .ok (list, rest)) :
    ∃ entries : List Entry, bytes = entries.flatMap Entry.bytes ++ rest ∧
      entries.length = count ∧ List.Forall₂ (Entry.ReadAs read) entries list := by
  induction count generalizing bytes list with
  | zero =>
    cases ok
    exact ⟨[], rfl, rfl, .nil⟩
  | succ count ih =>
    simp only [readEntries, step_bind_eq_ok, step_pure_eq_ok] at ok
    obtain ⟨found, _, first, others, _, more, same⟩ := ok
    cases same
    obtain ⟨entry, rfl, readAs⟩ := readEntry_ok first
    obtain ⟨entries, rfl, count_eq, listed⟩ := ih more
    refine ⟨entry :: entries, ?_, congrArg (· + 1) count_eq, .cons readAs listed⟩
    rw [List.flatMap_cons, List.append_assoc]

theorem readThreshold_ok {bytes : Bytes} {number : Nat} {list : List (Fulfillment × Bool)}
    (ok : readThreshold read bytes = .ok ((number, list), [])) :
    ∃ entries : List Entry, bytes = listing (UInt32.ofNat number) entries ∧
      List.Forall₂ (Entry.ReadAs read) entries list := by
  simp only [readThreshold, readUint, step_bind_eq_ok, Wire.Reader.orThrow_eq_ok] at ok
  obtain ⟨_, _, first, count, _, second, ok⟩ := ok
  obtain ⟨rfl, small⟩ := Wire.Reader.fixed_ok first
  obtain ⟨rfl, _⟩ := Wire.Reader.uint_ok second
  split at ok
  · obtain ⟨_, _, thrown, _⟩ := step_bind_eq_ok.1 ok
    cases thrown
  · simp only [step_bind_eq_ok, step_pure_eq_ok] at ok
    obtain ⟨_, _, third, same⟩ := ok
    cases same
    obtain ⟨entries, rfl, rfl, listed⟩ := readEntries_ok third
    have value : (UInt32.ofNat number).toNat = number := by
      rw [UInt32.toNat_ofNat', Nat.mod_eq_of_lt (show number < 2 ^ 32 from small)]
    refine ⟨entries, ?_, listed⟩
    rw [listing, Threshold.header, value, List.append_nil, List.append_assoc]

end Entries

section Ordered

def ordered (list : List (Fulfillment × Bool)) : List (Fulfillment × Bool) :=
  Threshold.arranged (fun entry => entry.1.commitment) list

variable {list : List (Fulfillment × Bool)}

theorem ordered_perm (list : List (Fulfillment × Bool)) : (ordered list).Perm list :=
  Threshold.arranged_perm _ list

theorem ordered_sorted (list : List (Fulfillment × Bool)) :
    (((ordered list).map Prod.fst).map commitment).Pairwise fun a b => a.precedes b = true := by
  rw [List.map_map]
  exact Threshold.arranged_sorted _ list

theorem ordered_of_sorted
    (sorted : ((list.map Prod.fst).map commitment).Pairwise fun a b => a.precedes b = true) :
    ordered list = list := by
  rw [List.map_map] at sorted
  exact Threshold.arranged_of_sorted _ sorted

theorem ofEntries_eq (needed : UInt32) (list : List (Fulfillment × Bool)) :
    ofEntries needed list = (do
      Threshold.checkShape needed list.length
      if revealedWeight list < needed.toNat then throw (.fulfillment .revealedWeight)
      let c ← Threshold.condition needed (((ordered list).map Prod.fst).map commitment)
      return threshold Weight.one needed ((ordered list).map Prod.fst)
        (.revealed ((ordered list).map Prod.snd)) c) := by
  have pairs := Threshold.arrange_pairs (fun entry : Fulfillment × Bool => entry.1.commitment) list
  rw [ofEntries, pairs]
  dsimp only
  rw [List.map_map, List.map_map, List.map_map, List.map_map]
  rfl

end Ordered

theorem ofEntries_eq_ok {needed : UInt32} {list : List (Fulfillment × Bool)} {f : Fulfillment}
    (ok : ofEntries needed list = .ok f) :
    ∃ order c,
      f = threshold Weight.one needed (order.map Prod.fst) (.revealed (order.map Prod.snd)) c ∧
      order.Perm list ∧ Threshold.checkShape needed order.length = .ok () ∧
      needed.toNat ≤ revealedWeight order ∧
      ((order.map Prod.fst).map commitment).Pairwise (fun a b => a.precedes b = true) ∧
      Threshold.condition needed ((order.map Prod.fst).map commitment) = .ok c ∧
      (((list.map Prod.fst).map commitment).Pairwise (fun a b => a.precedes b = true) →
        order = list) := by
  have perm := ordered_perm list
  rw [ofEntries_eq] at ok
  obtain ⟨_, shape, ok⟩ := bind_eq_ok.1 ok
  dsimp only at ok
  split at ok
  · obtain ⟨_, thrown, _⟩ := bind_eq_ok.1 ok
    cases thrown
  · next enough =>
    simp only [bind_eq_ok, pure_eq_ok] at ok
    obtain ⟨c, conditioned, rfl⟩ := ok
    have same : revealedWeight (ordered list) = revealedWeight list :=
      ((perm.filter _).map _).sum_nat
    refine ⟨ordered list, c, rfl, perm, ?_, by omega, ordered_sorted list, conditioned,
      ordered_of_sorted⟩
    rw [perm.length_eq]
    exact shape

inductive Parsed (read : PayloadReader) : Bytes → Fulfillment → Prop where
  | preimage (bytes : Bytes) : Parsed read bytes (.preimage Weight.one bytes)
  | prefixed {lead binary : Bytes} {sub : Fulfillment} {c : Condition}
      (short : lead.length < 2 ^ 64) (inner : whole (readFrame read) binary = .ok sub)
      (made : ofPrefix lead sub = .ok (.prefixed Weight.one lead sub c)) :
      Parsed read (Wire.octets lead ++ binary) (.prefixed Weight.one lead sub c)
  | ed25519 (key : Ed25519.PublicKey) (signature : Octets 64) :
      Parsed read (key.octets.bytes ++ signature.bytes) (.ed25519 Weight.one key (some signature))
  | rsa (modulus : Rsa.Modulus) (long : Rsa.minLength ≤ modulus.length)
      (signature : Octets modulus.length) :
      Parsed read (modulus.bytes ++ signature.bytes)
        (.rsa Weight.one ⟨modulus, Rsa.publicExponent⟩ long (some signature))
  | threshold {needed : UInt32} {entries : List Entry} {list : List (Fulfillment × Bool)}
      {subs : List Fulfillment} {flags : List Bool} {c : Condition}
      (fits : (listing needed entries).length ≤ Threshold.maxPayload)
      (listed : List.Forall₂ (Entry.ReadAs read) entries list)
      (made : ofEntries needed list =
        .ok (.threshold Weight.one needed subs (.revealed flags) c)) :
      Parsed read (listing needed entries) (.threshold Weight.one needed subs (.revealed flags) c)
  | timeout (expiry : UInt64) : Parsed read (expiryBytes expiry) (.timeout Weight.one expiry)

section Payloads

variable {read : PayloadReader} {payload : Bytes} {f : Fulfillment}

theorem ofEd25519Payload_ok (ok : ofEd25519Payload payload = .ok f) :
    f.type = .ed25519 ∧ Parsed read payload f := by
  unfold ofEd25519Payload at ok
  split at ok
  · cases ok
  · split at ok
    · cases ok
    · next key found =>
      obtain ⟨octets, taken, known⟩ := Option.bind_eq_some_iff.1 found
      obtain ⟨signature, rfl, bytes⟩ := ofEd25519_eq_ok ok
      cases signature with
      | none => cases bytes
      | some signature =>
        have front : key.octets.bytes = payload.take 32 := by
          rw [Ed25519.PublicKey.octets_of_ofOctets? known, Octets.bytes_of_ofBytes? taken]
        have back : signature.bytes = payload.drop 32 := Option.some.inj bytes
        rw [← List.take_append_drop 32 payload, ← front, ← back]
        exact ⟨rfl, .ed25519 key signature⟩

theorem ofRsaPayload_ok (ok : ofRsaPayload payload = .ok f) :
    f.type = .rsa ∧ Parsed read payload f := by
  unfold ofRsaPayload at ok
  dsimp only at ok
  split at ok
  · cases ok
  · split at ok
    · cases ok
    · split at ok
      · cases ok
      · next key found =>
        obtain ⟨modulus, exponent⟩ := key
        obtain ⟨front, rfl⟩ := Rsa.PublicKey.ofModulus_eq_ok found
        obtain ⟨long, signature, rfl, bytes⟩ := ofRsa_eq_ok ok
        cases signature with
        | none => cases bytes
        | some signature =>
          have back : signature.bytes = payload.drop (payload.length / 2) := Option.some.inj bytes
          rw [← List.take_append_drop (payload.length / 2) payload, ← front, ← back]
          exact ⟨rfl, .rsa modulus long signature⟩

theorem ofTimeoutPayload_ok (ok : ofTimeoutPayload payload = .ok f) :
    f.type = .timeout ∧ Parsed read payload f := by
  simp only [ofTimeoutPayload, bind_eq_ok, pure_eq_ok, whole_eq_ok, readUint,
    Wire.Reader.orThrow_eq_ok] at ok
  obtain ⟨expiry, taken, rfl⟩ := ok
  obtain ⟨form, small⟩ := Wire.Reader.uint_ok taken
  have bytes : payload = expiryBytes (UInt64.ofNat expiry) := by
    rw [form, expiryBytes, UInt64.toNat_ofNat', Nat.mod_eq_of_lt small, List.append_nil]
  rw [bytes]
  exact ⟨rfl, .timeout _⟩

theorem ofPrefixPayload_ok (ok : ofPrefixPayload read payload = .ok f) :
    ∃ lead binary sub, payload = Wire.octets lead ++ binary ∧ lead.length < 2 ^ 64 ∧
      whole (readFrame read) binary = .ok sub ∧ ofPrefix lead sub = .ok f := by
  simp only [ofPrefixPayload, bind_eq_ok, whole_eq_ok, step_bind_eq_ok, step_pure_eq_ok,
    readOctets, Wire.Reader.orThrow_eq_ok] at ok
  obtain ⟨⟨lead, sub⟩, ⟨_, binary, first, _, _, second, same⟩, made⟩ := ok
  cases same
  obtain ⟨form, short⟩ := Wire.Reader.octets_ok first
  exact ⟨lead, binary, sub, form, short, whole_eq_ok.2 second, made⟩

theorem ofThresholdPayload_ok (ok : ofThresholdPayload read payload = .ok f) :
    ∃ needed entries list, payload = listing needed entries ∧
      payload.length ≤ Threshold.maxPayload ∧ List.Forall₂ (Entry.ReadAs read) entries list ∧
      ofEntries needed list = .ok f := by
  unfold ofThresholdPayload at ok
  split at ok
  · obtain ⟨_, thrown, _⟩ := bind_eq_ok.1 ok
    cases thrown
  · next fits =>
    simp only [bind_eq_ok, whole_eq_ok] at ok
    obtain ⟨⟨number, list⟩, taken, made⟩ := ok
    obtain ⟨entries, form, listed⟩ := readThreshold_ok taken
    exact ⟨_, entries, list, form, Nat.le_of_not_lt fits, listed, made⟩

end Payloads

theorem ofPayload_ok {levels type : Nat} {payload : Bytes} {f : Fulfillment}
    (ok : ofPayload (levels + 1) type payload = .ok f) :
    f.type.id = type ∧ Parsed (ofPayload levels) payload f := by
  unfold ofPayload at ok
  split at ok
  · cases ok
  · next typed =>
    cases ok
    exact ⟨ConditionType.id_of_ofId? typed, .preimage payload⟩
  · next typed =>
    obtain ⟨lead, binary, sub, rfl, short, inner, made⟩ := ofPrefixPayload_ok ok
    obtain ⟨_, rfl⟩ := ofPrefix_eq_ok.1 made
    exact ⟨ConditionType.id_of_ofId? typed, .prefixed short inner made⟩
  · next typed =>
    obtain ⟨needed, entries, list, rfl, fits, listed, made⟩ := ofThresholdPayload_ok ok
    obtain ⟨order, c, rfl, _⟩ := ofEntries_eq_ok made
    exact ⟨ConditionType.id_of_ofId? typed, .threshold fits listed made⟩
  · next typed =>
    obtain ⟨same, parsed⟩ := ofRsaPayload_ok ok
    exact ⟨by rw [same, ConditionType.id_of_ofId? typed], parsed⟩
  · next typed =>
    obtain ⟨same, parsed⟩ := ofEd25519Payload_ok ok
    exact ⟨by rw [same, ConditionType.id_of_ofId? typed], parsed⟩
  · next typed =>
    obtain ⟨same, parsed⟩ := ofTimeoutPayload_ok ok
    exact ⟨by rw [same, ConditionType.id_of_ofId? typed], parsed⟩

end CryptoConditions.Fulfillment
