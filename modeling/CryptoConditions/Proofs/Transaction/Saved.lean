import CryptoConditions.Proofs.Transaction.Printed

/-! A transaction that is written to a text and read again. It comes back as it was, but that null
metadata are none; what is signed, the id and the checks of inputs stay what they were. -/

namespace CryptoConditions

open Json

namespace Transaction

variable {t : Transaction} {room : Nat}

/-- All that is chosen freely can be written without loss, in the depth that is read. -/
structure Storable (t : Transaction) : Prop where
  asset : t.asset.Fits Number.IsInteger (maxDepth - 1)
  metadata : ∀ value ∈ t.metadata, value.Fits Number.IsInteger (maxDepth - 1)
  details : ∀ o ∈ t.outputs, o.condition.details.toJson.depth + 4 ≤ maxDepth
  timestamp : t.timestamp.Valid

theorem Storable.proper (storable : t.Storable) : t.Proper :=
  ⟨storable.asset.normal, fun value given => (storable.metadata value given).normal,
    storable.timestamp⟩

theorem omissible_metadata {metadata : Option Json}
    (fits : ∀ value ∈ metadata, value.Fits Number.IsInteger room) :
    (Slot.given (written (.ofOption (fun value => value) metadata))).omissible Decoder.value room =
      some (metadata.filter (· ≠ .null)) := by
  cases metadata with
  | none => rfl
  | some value =>
    by_cases null : value = .null
    · subst null
      rfl
    · have shown : (some value).filter (· ≠ .null) = some value :=
        filter_null_self (by simpa using null)
      rw [shown]
      exact nullable_written (f := fun value => value) null (fits value rfl).read

theorem instant?_written {i : Instant} (valid : i.Valid) :
    instant? room (written (.string (Timestamp.format i))) = some i := by
  rw [instant?, string_written, Option.bind_some, Timestamp.parse?_format valid]

theorem decodeJson?_toJson (storable : t.Storable) :
    decodeJson? maxDepth t.toJson.written = some t.withoutNull := by
  have slots : slots? fieldNames t.toJson.written =
      some [.given (written (.string t.id)), .given (written (.string t.version)),
        .given (written (.string t.operation.name)), .given t.asset.written,
        .given (written (.ofOption (fun value => value) t.metadata)),
        .given (written (.array (t.inputs.map Input.toJson))),
        .given (written (.array (t.outputs.map Output.toJson))),
        .given (written (.string (Timestamp.format t.timestamp)))] := by
    rw [toJson, slots?_written]
    simp [fieldNames, slotIn?, slotFrom?_single]
  have operation : Decoder.choice Operation.ofName? 126 (written (.string t.operation.name)) =
      some t.operation := choice_written t.operation.ofName?_name
  have inputs : Decoder.list Input.ofJson? 126 (written (.array (t.inputs.map Input.toJson))) =
      some t.inputs := list_written fun i _ => i.ofJson?_toJson 123
  have outputs : Decoder.list Output.ofJson? 126 (written (.array (t.outputs.map Output.toJson))) =
      some t.outputs :=
    list_written fun o mem => Output.ofJson?_toJson (Nat.le_of_add_le_add_right
      (storable.details o mem : _ + 4 ≤ 123 + 4))
  have asset : Decoder.value 126 t.asset.written = some t.asset := storable.asset.read
  have metadata : (Slot.given (written (.ofOption (fun value => value) t.metadata))).omissible
      Decoder.value 126 = some (t.metadata.filter (· ≠ .null)) :=
    omissible_metadata storable.metadata
  have timestamp : instant? 126 (written (.string (Timestamp.format t.timestamp))) =
      some t.timestamp := instant?_written storable.timestamp
  simp [maxDepth, decodeJson?, slots, Slot.required, string_written, operation, asset, metadata,
    inputs, outputs, timestamp, withoutNull]

theorem ofText_text (storable : t.Storable) : ofText t.text = .ok t.withoutNull := by
  have read : Written.ofText? t.text = some t.toJson.written :=
    ofText?_chars storable.proper.numbers .indented
  have decoded : decode? decodeJson? t.text = some t.withoutNull := by
    rw [decode?, read, Option.bind_eq_bind, Option.bind_some, decodeJson?_toJson storable]
  rw [ofText, decoded]

/-- Saving keeps what a document means. -/
theorem meaning_of_saved (asset : t.asset.Fits Number.IsInteger 100)
    (metadata : ∀ value ∈ t.metadata, value.Fits Number.IsInteger 100)
    (details : ∀ o ∈ t.outputs, o.condition.details.toJson.depth + 4 ≤ maxDepth)
    (timestamp : t.timestamp.Valid) :
    ofText t.text = .ok t.withoutNull ∧
      t.withoutNull.signingBytes = t.signingBytes ∧
      t.withoutNull.calculateId = t.calculateId ∧
      t.withoutNull.hasValidId = t.hasValidId ∧
      t.withoutNull.isFulfilled = t.isFulfilled := by
  have storable : t.Storable :=
    ⟨asset.mono (by decide), fun value given => (metadata value given).mono (by decide), details,
      timestamp⟩
  exact ⟨ofText_text storable, withoutNull_signingBytes t, withoutNull_calculateId t,
    withoutNull_hasValidId t, withoutNull_isFulfilled t⟩

theorem meaning_of_saved_cup :
    ofText (cup (some .null) (some "cf:0:")).text = .ok (cup none (some "cf:0:")) ∧
      (cup none (some "cf:0:")).signingBytes = (cup (some .null) (some "cf:0:")).signingBytes := by
  have numbers : (cup (some .null) (some "cf:0:")).asset.Numbers Number.IsInteger :=
    ⟨trivial, ⟨trivial, trivial, trivial⟩, trivial⟩
  have ordered : (cup (some .null) (some "cf:0:")).asset.Ordered :=
    ⟨by decide, trivial, ⟨trivial, trivial, trivial⟩, trivial⟩
  have metadata : ∀ value ∈ (cup (some .null) (some "cf:0:")).metadata,
      value.Fits Number.IsInteger 100 := by
    rintro _ ⟨⟩
    exact ⟨trivial, trivial, by decide⟩
  have saved := meaning_of_saved ⟨numbers, ordered, by decide⟩ metadata (by decide)
    (cup_valid (some .null) (some "cf:0:"))
  exact ⟨saved.1, saved.2.1⟩

end Transaction

end CryptoConditions
