import CryptoConditions.Proofs.Fulfillment.WellFormed

/-! Payloads. There is one where a fulfillment can be revealed, and what it is
made of shows in the fulfillment: the parts that are written have payloads too. -/

namespace CryptoConditions.Fulfillment

@[simp] theorem payload_withWeight (w : Weight) (f : Fulfillment) :
    (f.withWeight w).payload = f.payload := by
  cases f with
  | ed25519 _ _ signature => cases signature <;> simp only [withWeight, payload]
  | rsa _ _ _ signature => cases signature <;> simp only [withWeight, payload]
  | _ => simp only [withWeight, payload]

@[simp] theorem binary_withWeight (w : Weight) (f : Fulfillment) :
    (f.withWeight w).binary = f.binary := by
  rw [binary, binary, payload_withWeight, type_withWeight]

theorem binary_eq_ok {f : Fulfillment} {bytes : Bytes} :
    f.binary = .ok bytes ↔ ∃ shown, f.payload = .ok shown ∧ bytes = frame f.type shown := by
  simp only [binary, bind_eq_ok, pure_eq_ok]

theorem payload_prefixed_eq_ok {w : Weight} {lead bytes : Bytes} {sub : Fulfillment}
    {c : Condition} : (prefixed w lead sub c).payload = .ok bytes ↔
      ∃ shown, sub.payload = .ok shown ∧ bytes = Wire.octets lead ++ frame sub.type shown := by
  simp only [payload, bind_eq_ok, pure_eq_ok]

theorem payload_revealed_eq_ok {w : Weight} {needed : UInt32} {subs : List Fulfillment}
    {flags : List Bool} {c : Condition} {bytes : Bytes} :
    (threshold w needed subs (.revealed flags) c).payload = .ok bytes ↔
      ∃ shown, entries subs flags = .ok shown ∧
        bytes = Threshold.header needed subs.length ++ shown := by
  simp only [payload, bind_eq_ok, pure_eq_ok]

@[simp] theorem frame_length (type : ConditionType) (payload : Bytes) :
    (frame type payload).length = 2 + Wire.octetsLength payload.length := by
  simp [frame]

section Entries

variable {sub : Fulfillment} {subs : List Fulfillment} {flags : List Bool} {bytes : Bytes}

theorem entries_nil : entries [] flags = .ok bytes ↔ bytes = [] := by
  simp only [entries, Except.ok.injEq, eq_comm]

theorem entries_true :
    entries (sub :: subs) (true :: flags) = .ok bytes ↔
      ∃ shown rest, sub.payload = .ok shown ∧ entries subs flags = .ok rest ∧
        bytes = Threshold.revealedEntry sub.commitment (frame sub.type shown) ++ rest := by
  simp only [entries, bind_eq_ok, pure_eq_ok]
  constructor
  · rintro ⟨shown, written, rest, others, rfl⟩
    exact ⟨shown, rest, written, others, rfl⟩
  · rintro ⟨shown, rest, written, others, rfl⟩
    exact ⟨shown, written, rest, others, rfl⟩

theorem entries_false :
    entries (sub :: subs) (false :: flags) = .ok bytes ↔
      ∃ rest, entries subs flags = .ok rest ∧
        bytes = Threshold.hiddenEntry sub.commitment ++ rest := by
  simp only [entries, bind_eq_ok, pure_eq_ok]

theorem payload_of_entries (written : entries subs flags = .ok bytes)
    (revealed : (sub, true) ∈ subs.zip flags) : ∃ shown, sub.payload = .ok shown := by
  induction subs generalizing flags bytes with
  | nil => cases revealed
  | cons first subs ih =>
    cases flags with
    | nil => cases revealed
    | cons flag flags =>
      cases flag with
      | false =>
        obtain ⟨rest, others, _⟩ := entries_false.1 written
        exact ih others (by simpa using revealed)
      | true =>
        obtain ⟨shown, rest, paid, others, _⟩ := entries_true.1 written
        rw [List.zip_cons_cons, List.mem_cons] at revealed
        rcases revealed with same | revealed
        · cases same
          exact ⟨shown, paid⟩
        · exact ih others revealed

end Entries

/-- A fulfillment and its payload, with those of the parts that are written in it. -/
inductive Written : Fulfillment → Bytes → Prop where
  | preimage (w : Weight) (bytes : Bytes) : Written (.preimage w bytes) bytes
  | prefixed {w : Weight} {lead shown : Bytes} {sub : Fulfillment} {c : Condition}
      (made : ofPrefix lead sub = .ok (.prefixed Weight.one lead sub c))
      (inner : Written sub shown) :
      Written (.prefixed w lead sub c) (Wire.octets lead ++ frame sub.type shown)
  | ed25519 (w : Weight) (key : Ed25519.PublicKey) (signature : Octets 64) :
      Written (.ed25519 w key (some signature)) (key.octets.bytes ++ signature.bytes)
  | rsa (w : Weight) (key : Rsa.PublicKey) (long : Rsa.minLength ≤ key.modulus.length)
      (signature : Octets key.modulus.length) :
      Written (.rsa w key long (some signature)) (key.modulus.bytes ++ signature.bytes)
  | threshold {w : Weight} {needed : UInt32} {subs : List Fulfillment} {flags : List Bool}
      {c : Condition} {bytes : Bytes} (parts : ∀ sub ∈ subs, sub.WellFormed)
      (assembled : Assembled needed subs (.revealed flags) c)
      (written : entries subs flags = .ok bytes)
      (inner : ∀ sub shown, (sub, true) ∈ subs.zip flags → sub.payload = .ok shown →
        Written sub shown) :
      Written (.threshold w needed subs (.revealed flags) c)
        (Threshold.header needed subs.length ++ bytes)
  | timeout (w : Weight) (expiry : UInt64) : Written (.timeout w expiry) (expiryBytes expiry)

theorem WellFormed.written {f : Fulfillment} (h : f.WellFormed) {shown : Bytes}
    (paid : f.payload = .ok shown) : f.Written shown := by
  induction h generalizing shown with
  | preimage w bytes =>
    simp only [Fulfillment.payload, Except.ok.injEq] at paid
    subst paid
    exact .preimage w bytes
  | prefixed part made ih =>
    obtain ⟨shown, below, rfl⟩ := payload_prefixed_eq_ok.1 paid
    exact .prefixed made (ih below)
  | ed25519 w key signature =>
    cases signature with
    | none => simp [Fulfillment.payload] at paid
    | some signature =>
      simp only [Fulfillment.payload, Except.ok.injEq] at paid
      subst paid
      exact .ed25519 w key signature
  | rsa w key long signature =>
    cases signature with
    | none => simp [Fulfillment.payload] at paid
    | some signature =>
      simp only [Fulfillment.payload, Except.ok.injEq] at paid
      subst paid
      exact .rsa w key long signature
  | @threshold w needed subs selection c parts assembled ih =>
    cases selection with
    | revealed flags =>
      obtain ⟨bytes, written, rfl⟩ := payload_revealed_eq_ok.1 paid
      exact .threshold parts assembled written fun sub _ mem => ih sub (List.of_mem_zip mem).1
    | _ => simp [Fulfillment.payload] at paid
  | timeout w expiry =>
    simp only [Fulfillment.payload, Except.ok.injEq] at paid
    subst paid
    exact .timeout w expiry
  | withheld => simp [Fulfillment.payload] at paid

theorem Written.payload_eq {f : Fulfillment} {shown : Bytes} (h : f.Written shown) :
    f.payload = .ok shown := by
  induction h with
  | prefixed made inner ih => exact payload_prefixed_eq_ok.2 ⟨_, ih, rfl⟩
  | threshold parts assembled written inner ih =>
    exact payload_revealed_eq_ok.2 ⟨_, written, rfl⟩
  | _ => simp only [Fulfillment.payload]

theorem Written.canReveal {f : Fulfillment} {shown : Bytes} (h : f.Written shown) :
    f.canReveal = true := by
  induction h with
  | prefixed made inner ih => exact ih
  | _ => rfl

theorem Assembled.entries_fit {needed : UInt32} {subs : List Fulfillment} {flags : List Bool}
    {c : Condition} (h : Assembled needed subs (.revealed flags) c) {bytes : Bytes}
    (written : entries subs flags = .ok bytes) :
    Threshold.headerLength subs.length + bytes.length ≤ Threshold.maxPayload := by
  obtain ⟨_, _, shown, written', fits⟩ := h.revealing flags rfl
  rw [written] at written'
  cases written'
  exact fits

theorem Assembled.length_le {needed : UInt32} {subs : List Fulfillment} {flags : List Bool}
    {c : Condition} (h : Assembled needed subs (.revealed flags) c) {bytes : Bytes}
    (written : entries subs flags = .ok bytes) :
    (Threshold.header needed subs.length ++ bytes).length ≤ Threshold.maxPayload := by
  rw [List.length_append, Threshold.header_length]
  exact h.entries_fit written

theorem WellFormed.payload {f : Fulfillment} (h : f.WellFormed) (can : f.canReveal = true) :
    ∃ shown, f.payload = .ok shown := by
  induction h with
  | preimage w bytes => exact ⟨bytes, (Written.preimage w bytes).payload_eq⟩
  | prefixed part made ih =>
    obtain ⟨shown, paid⟩ := ih can
    exact ⟨_, (Written.prefixed made (part.written paid)).payload_eq⟩
  | ed25519 w key signature =>
    cases signature with
    | none => cases can
    | some signature => exact ⟨_, (Written.ed25519 w key signature).payload_eq⟩
  | rsa w key long signature =>
    cases signature with
    | none => cases can
    | some signature => exact ⟨_, (Written.rsa w key long signature).payload_eq⟩
  | @threshold w needed subs selection c parts assembled _ =>
    cases selection with
    | revealed flags =>
      obtain ⟨_, _, shown, written, _⟩ := assembled.revealing flags rfl
      exact ⟨_, (Written.threshold parts assembled written fun sub _ mem =>
        (parts sub (List.of_mem_zip mem).1).written).payload_eq⟩
    | _ => cases can
  | timeout w expiry => exact ⟨_, (Written.timeout w expiry).payload_eq⟩
  | withheld => cases can

end CryptoConditions.Fulfillment
