import CryptoConditions.Proofs.Condition.Split
import CryptoConditions.Proofs.Fulfillment.Decoded
import CryptoConditions.Proofs.Wire.Uri

/-! Readers of frames, entries and payloads, on bytes as they are written: what
is in front is read back, and what is left goes on. -/

namespace CryptoConditions.Fulfillment

theorem whole_of_ok {α : Type} {step : Step α} {bytes : Bytes} {a : α}
    (ok : step bytes = .ok (a, [])) : whole step bytes = .ok a :=
  whole_eq_ok.2 ok

theorem whole_of_error {α : Type} {step : Step α} {bytes : Bytes} {e : ConditionError}
    (error : step bytes = .error e) : whole step bytes = .error e := by
  rw [whole, bind_of_error error]

theorem readFrame_frame {read : PayloadReader} (type : ConditionType) {payload : Bytes}
    (small : payload.length < 2 ^ 64) (rest : Bytes) :
    readFrame read (frame type payload ++ rest) =
      (read type.id payload).map fun f => (f, rest) := by
  have id : type.id % 256 ^ 2 = type.id := by cases type <;> rfl
  rw [readFrame, frame, List.append_assoc,
    step_bind (Wire.Reader.orThrow_of_ok (Wire.Reader.fixed_bigEndian _ _ _)), readOctets,
    step_bind (Wire.Reader.orThrow_of_ok (Wire.Reader.octets_octets small _)), id]
  rfl

theorem whole_readFrame {read : PayloadReader} (type : ConditionType) {payload : Bytes}
    (small : payload.length < 2 ^ 64) :
    whole (readFrame read) (frame type payload) = read type.id payload := by
  have form := @readFrame_frame read type payload small []
  rw [List.append_nil] at form
  cases found : read type.id payload with
  | error e =>
    rw [found] at form
    exact whole_of_error form
  | ok f =>
    rw [found] at form
    exact whole_of_ok form

section Entry

variable {read : PayloadReader} {part : Commitment}

theorem readEntry_hidden (consistent : part.condition.Consistent) (rest : Bytes) :
    readEntry read (Threshold.hiddenEntry part ++ rest) =
      .ok ((withheld ⟨part.condition, part.weight, none⟩, false), rest) := by
  have narrow : ¬ 2 ^ 32 ≤ part.weight.toNat := by
    have small := part.weight.toNat_lt
    omega
  have short : part.condition.binary.length < 2 ^ 64 := by
    have width : byteWidth part.condition.size.toNat ≤ 8 :=
      byteWidth_le part.condition.size.toNat_lt (by decide)
    rw [Condition.binary_length, Condition.binaryLength_eq]
    omega
  rw [readEntry, Threshold.hiddenEntry, List.append_assoc, List.append_assoc, readUint,
    step_bind (Wire.Reader.orThrow_of_ok (Wire.Reader.uint_uint (by omega) _)), if_neg narrow,
    readOctets]
  beta_reduce
  rw [step_bind (Wire.Reader.orThrow_of_ok (Wire.Reader.octets_octets (by simp) _)),
    step_bind (Wire.Reader.orThrow_of_ok (Wire.Reader.octets_octets short _))]
  obtain ⟨byte, tail, form⟩ := List.exists_cons_of_ne_nil part.condition.binary_ne_nil
  simp only [form]
  rw [← form, step_bind (step_lift_eq_ok.2 ⟨consistent.ofBinary, rfl⟩),
    step_bind (step_lift_eq_ok.2 ⟨Weight.ofNat_toNat _, rfl⟩)]
  rfl

theorem readEntry_revealed (type : ConditionType) {payload : Bytes}
    (small : (frame type payload).length < 2 ^ 64) (rest : Bytes) :
    readEntry read (Threshold.revealedEntry part (frame type payload) ++ rest) =
      (read type.id payload).map fun f => ((f.withWeight part.weight, true), rest) := by
  have narrow : ¬ 2 ^ 32 ≤ part.weight.toNat := by
    have bound := part.weight.toNat_lt
    omega
  have inner : payload.length < 2 ^ 64 := by
    rw [frame_length, Wire.octetsLength] at small
    omega
  rw [readEntry, Threshold.revealedEntry, List.append_assoc, List.append_assoc, readUint,
    step_bind (Wire.Reader.orThrow_of_ok (Wire.Reader.uint_uint (by omega) _)), if_neg narrow,
    readOctets]
  beta_reduce
  rw [step_bind (Wire.Reader.orThrow_of_ok (Wire.Reader.octets_octets small _)),
    step_bind (Wire.Reader.orThrow_of_ok (Wire.Reader.octets_octets (by simp) _))]
  obtain ⟨byte, tail, form⟩ : ∃ byte tail, frame type payload = byte :: tail :=
    ⟨_, _, rfl⟩
  simp only [form]
  rw [← form]
  have framed := @whole_readFrame read type payload inner
  cases found : read type.id payload with
  | error e =>
    rw [found] at framed
    rw [framed]
    rfl
  | ok f =>
    rw [found] at framed
    rw [framed, step_bind (step_lift_eq_ok.2 ⟨rfl, rfl⟩),
      step_bind (step_lift_eq_ok.2 ⟨Weight.ofNat_toNat _, rfl⟩)]
    rfl

end Entry

theorem ofEntries_zip {needed : UInt32} {subs : List Fulfillment} {flags : List Bool}
    {c : Condition} (h : Assembled needed subs (.revealed flags) c) :
    ofEntries needed (subs.zip flags) =
      .ok (threshold Weight.one needed subs (.revealed flags) c) := by
  obtain ⟨long, enough, _⟩ := h.revealing flags rfl
  have firsts : (subs.zip flags).map Prod.fst = subs := List.map_fst_zip (by omega)
  have seconds : (subs.zip flags).map Prod.snd = flags := List.map_snd_zip (by omega)
  have stays : ordered (subs.zip flags) = subs.zip flags :=
    ordered_of_sorted (by rw [firsts]; exact h.sorted)
  have count : (subs.zip flags).length = subs.length := by
    rw [List.length_zip, long, Nat.min_self]
  rw [ofEntries_eq, stays, firsts, seconds, count, bind_of_ok h.shape]
  dsimp only
  rw [if_neg (by omega)]
  exact bind_of_ok h.condition_eq _

theorem readThreshold_header {read : PayloadReader} {needed : UInt32} {count : Nat}
    (shape : Threshold.checkShape needed count = .ok ()) (bytes : Bytes) :
    readThreshold read (Threshold.header needed count ++ bytes) =
      (readEntries read count bytes).map fun found => ((needed.toNat, found.1), found.2) := by
  obtain ⟨_, nonempty, few⟩ := checkShape_eq_ok.1 shape
  have number : needed.toNat % 256 ^ 4 = needed.toNat := Nat.mod_eq_of_lt needed.toNat_lt
  have counted := @Wire.Reader.orThrow_of_ok _ _ codecError _ _ _ _
    (Wire.Reader.uint_uint (show count < 2 ^ 64 by omega) bytes)
  rw [Threshold.header, List.append_assoc, readThreshold,
    step_bind (Wire.Reader.orThrow_of_ok (Wire.Reader.fixed_bigEndian 4 needed.toNat _)), readUint,
    step_bind counted, number, if_neg (by unfold Threshold.maxParts; omega)]
  beta_reduce
  cases found : readEntries read count bytes with
  | error e => rw [step_bind_error found, Except.map]
  | ok pair =>
    rw [step_bind found]
    rfl

section Payloads

theorem ofEd25519Payload_octets (key : Ed25519.PublicKey) (signature : Octets 64) :
    ofEd25519Payload (key.octets.bytes ++ signature.bytes) =
      .ok (ed25519 Weight.one key (some signature)) := by
  have front : (key.octets.bytes ++ signature.bytes).take 32 = key.octets.bytes :=
    List.take_left' key.octets.length_eq
  have back : (key.octets.bytes ++ signature.bytes).drop 32 = signature.bytes :=
    List.drop_left' key.octets.length_eq
  have length : (key.octets.bytes ++ signature.bytes).length = 96 := by
    rw [List.length_append, key.octets.length_eq, signature.length_eq]
  have found : (Octets.ofBytes? 32 key.octets.bytes).bind Ed25519.PublicKey.ofOctets? =
      some key := by
    rw [Octets.ofBytes?_bytes, Option.bind_some, Ed25519.PublicKey.ofOctets?_octets]
  rw [ofEd25519Payload, if_neg (by rw [length]; simp), front, back, found]
  simp only [ofEd25519, Octets.ofBytes?_bytes]

theorem ofRsaPayload_octets (key : Rsa.PublicKey) (long : Rsa.minLength ≤ key.modulus.length)
    (signature : Octets key.modulus.length) :
    ofRsaPayload (key.modulus.bytes ++ signature.bytes) =
      .ok (rsa Weight.one ⟨key.modulus, Rsa.publicExponent⟩ long (some signature)) := by
  have most := key.modulus.length_le
  have width := key.modulus.bytes_length
  have length : (key.modulus.bytes ++ signature.bytes).length = 2 * key.modulus.length := by
    rw [List.length_append, width, signature.length_eq]
    omega
  have front : (key.modulus.bytes ++ signature.bytes).take key.modulus.length =
      key.modulus.bytes := List.take_left' width
  have back : (key.modulus.bytes ++ signature.bytes).drop key.modulus.length =
      signature.bytes := List.drop_left' width
  have half : 2 * key.modulus.length / 2 = key.modulus.length := by omega
  rw [ofRsaPayload]
  dsimp only
  rw [length, half, if_neg (by omega), if_neg (by omega), front, back,
    Rsa.PublicKey.ofModulus_bytes]
  simp only [ofRsa, dif_pos long, Octets.ofBytes?_bytes]

theorem ofTimeoutPayload_expiryBytes (expiry : UInt64) :
    ofTimeoutPayload (expiryBytes expiry) = .ok (timeout Weight.one expiry) := by
  have read := Wire.Reader.uint_uint expiry.toNat_lt []
  rw [List.append_nil] at read
  have value : whole readUint (expiryBytes expiry) = .ok expiry.toNat :=
    whole_of_ok (Wire.Reader.orThrow_of_ok read)
  rw [ofTimeoutPayload, bind_of_ok value, UInt64.ofNat_toNat]
  rfl

theorem ofPrefixPayload_frame {read : PayloadReader} {lead : Bytes} (type : ConditionType)
    {shown : Bytes} (short : lead.length < 2 ^ 64) (small : shown.length < 2 ^ 64) :
    ofPrefixPayload read (Wire.octets lead ++ frame type shown) =
      read type.id shown >>= ofPrefix lead := by
  have first := @Wire.Reader.orThrow_of_ok _ _ codecError _ _ _ _
    (Wire.Reader.octets_octets short (frame type shown))
  have second := @readFrame_frame read type shown small []
  rw [List.append_nil] at second
  rw [ofPrefixPayload, readOctets]
  cases found : read type.id shown with
  | error e =>
    rw [found] at second
    rw [bind_of_error (whole_of_error (by rw [step_bind first, step_bind_error second]))]
    rfl
  | ok f =>
    rw [found] at second
    rw [bind_of_ok (whole_of_ok (by rw [step_bind first, step_bind second]; rfl))]
    rfl

end Payloads

theorem ofPayload_succ (levels : Nat) (type : ConditionType) (payload : Bytes) :
    ofPayload (levels + 1) type.id payload = match type with
      | .preimage => .ok (preimage Weight.one payload)
      | .prefixed => ofPrefixPayload (ofPayload levels) payload
      | .threshold => ofThresholdPayload (ofPayload levels) payload
      | .rsa => ofRsaPayload payload
      | .ed25519 => ofEd25519Payload payload
      | .timeout => ofTimeoutPayload payload := by
  cases type with
  | _ => rfl

section Root

variable {f : Fulfillment} {shown : Bytes}

theorem ofBinary_frame (small : shown.length < 2 ^ 64) :
    ofBinary (frame f.type shown) = ofRoot f.type.id shown :=
  whole_readFrame f.type small

theorem ofUri_format : ofUri (⟨f.type.id, shown⟩ : Uri.FulfillmentParts).format =
    ofRoot f.type.id shown := by
  have fits : f.type.id < 2 ^ 16 := by cases f.type <;> decide
  rw [ofUri, Uri.parseFulfillment_format fits]

end Root

theorem length_lt_of_readFrame {read : PayloadReader} {type : ConditionType} {payload : Bytes}
    {f : Fulfillment} (ok : readFrame read (frame type payload) = .ok (f, [])) :
    payload.length < 2 ^ 64 := by
  simp only [readFrame, readOctets, step_bind_eq_ok, Wire.Reader.orThrow_eq_ok] at ok
  obtain ⟨_, _, first, taken, _, second, made⟩ := ok
  rw [frame, Wire.Reader.fixed_bigEndian] at first
  cases first
  obtain ⟨form, small⟩ := Wire.Reader.octets_ok second
  obtain ⟨_, rfl⟩ := step_lift_eq_ok.1 made
  rw [List.append_nil] at form
  rw [Wire.octets_injective form]
  exact small

theorem ofPrefixPayload_small {read : PayloadReader} {lead : Bytes} {type : ConditionType}
    {shown : Bytes} {f : Fulfillment} (short : lead.length < 2 ^ 64)
    (ok : ofPrefixPayload read (Wire.octets lead ++ frame type shown) = .ok f) :
    shown.length < 2 ^ 64 := by
  obtain ⟨_, _, _, form, short', framed, _⟩ := ofPrefixPayload_ok ok
  obtain ⟨_, rfl⟩ := Wire.octets_append_inj short short' form
  exact length_lt_of_readFrame (whole_eq_ok.1 framed)

end CryptoConditions.Fulfillment
