import Mathlib.Data.List.Basic
import CryptoConditions.Proofs.Document.RoundTrip
import CryptoConditions.Proofs.Text.Hex
import CryptoConditions.Proofs.Time.Timestamp
import CryptoConditions.Proofs.Transaction.Agreement

/-! What is written for a transaction and its parts. Each part is read back from what is written
for it; so transactions are written differently if they differ in anything but the two ways to
have no metadata. -/

namespace CryptoConditions

open Json

theorem Operation.ofName?_name (o : Operation) : ofName? o.name = some o := by
  cases o <;> decide

namespace OutputLink

theorem ofJson?_toJson (link : OutputLink) (room : Nat) :
    ofJson? (room + 1) link.toJson.written = some link := by
  have slots : slots? ["transaction_id", "output_index"] link.toJson.written =
      some [.given (written (.string link.transactionId)),
        .given (written (.ofUInt32 link.outputIndex))] := by
    rw [toJson, slots?_written]
    simp [slotIn?, slotFrom?_single]
  simp [ofJson?, slots, Slot.required, string_written, uint32_written]

theorem numbers_toJson (link : OutputLink) : link.toJson.Numbers Number.Normal :=
  ⟨trivial, trivial, trivial⟩

end OutputLink

namespace Input

theorem ofJson?_toJson (i : Input) (room : Nat) :
    ofJson? (room + 2) i.toJson.written = some i := by
  have slots : slots? ["owners_before", "fulfills", "fulfillment"] i.toJson.written =
      some [.given (written (.array (i.owners.map .string))),
        .given (written (.ofOption OutputLink.toJson i.spends)),
        .given (written (.ofOption .string i.fulfillment))] := by
    rw [toJson, slots?_written]
    simp [slotIn?, slotFrom?_single]
  have owners : Decoder.list Decoder.string (room + 1) (written (.array (i.owners.map .string))) =
      some i.owners :=
    list_written fun text _ => string_written text
  have spends : Decoder.nullable OutputLink.ofJson? (room + 1)
      (written (.ofOption OutputLink.toJson i.spends)) = some i.spends :=
    nullable_ofOption (fun _ _ null => by cases null) fun link _ => link.ofJson?_toJson room
  have fulfillment : Decoder.nullable Decoder.string (room + 1)
      (written (.ofOption .string i.fulfillment)) = some i.fulfillment :=
    nullable_ofOption (fun _ _ null => by cases null) fun text _ => string_written text
  simp [ofJson?, slots, Slot.required, Slot.optional, owners, spends, fulfillment]

theorem toJson_injective : Function.Injective toJson := by
  intro i j same
  exact eq_of_read (i.ofJson?_toJson 0) (j.ofJson?_toJson 0) (congrArg written same)

theorem numbers_toJson (i : Input) : i.toJson.Numbers Number.Normal := by
  have spends : (Json.ofOption OutputLink.toJson i.spends).Numbers Number.Normal := by
    cases i.spends with
    | none => trivial
    | some link => exact link.numbers_toJson
  have fulfillment : (Json.ofOption .string i.fulfillment).Numbers Number.Normal := by
    cases i.fulfillment <;> trivial
  exact ⟨itemNumbers_map.2 fun _ _ => trivial, spends, fulfillment, trivial⟩

end Input

namespace Output

theorem ofJson?_toJson {o : Output} {room : Nat}
    (within : o.condition.details.toJson.depth ≤ room) :
    ofJson? (room + 2) o.toJson.written = some o := by
  have slots : slots? ["amount", "condition", "public_keys"] o.toJson.written =
      some [.given (written (.ofUInt64 o.amount)), .given (written o.condition.toJson),
        .given (written (.array (o.publicKeys.map .string)))] := by
    rw [toJson, slots?_written]
    simp [slotIn?, slotFrom?_single]
  have condition : ConditionDocument.ofJson? (room + 1) o.condition.toJson.written =
      some o.condition :=
    ConditionDocument.ofJson?_toJson (by simpa [ConditionDocument.depth_toJson] using within)
  have keys : Decoder.list Decoder.string (room + 1)
      (written (.array (o.publicKeys.map .string))) = some o.publicKeys :=
    list_written fun text _ => string_written text
  simp [ofJson?, slots, Slot.required, uint64_written, condition, keys]

theorem toJson_injective : Function.Injective toJson := by
  intro o o' same
  have read := ofJson?_toJson (Nat.le_max_left o.condition.details.toJson.depth
    o'.condition.details.toJson.depth)
  exact eq_of_read read (ofJson?_toJson (Nat.le_max_right ..)) (congrArg written same)

theorem numbers_toJson (o : Output) : o.toJson.Numbers Number.Normal :=
  ⟨trivial, ⟨o.condition.details.numbers_toJson, trivial, trivial⟩,
    itemNumbers_map.2 fun _ _ => trivial, trivial⟩

theorem depth_of_ofJson? {room : Nat} {w : Written} {o : Output}
    (read : ofJson? room w = some o) : o.condition.details.toJson.depth + 2 ≤ room := by
  cases room with
  | zero => cases read
  | succ room =>
    simp only [ofJson?, Option.bind_eq_bind, Option.bind_eq_some_iff] at read
    obtain ⟨_, _, read⟩ := read
    split at read
    · simp only [Option.bind_eq_some_iff, Option.pure_def] at read
      obtain ⟨_, _, condition, found, _, _, same⟩ := read
      cases same
      obtain ⟨_, from_⟩ := read_of_required found
      exact Nat.succ_le_succ (ConditionDocument.depth_of_ofJson? from_)
    · cases read

end Output

namespace Timestamp

theorem format_injective {i j : Instant} (valid : i.Valid) (valid' : j.Valid)
    (same : format i = format j) : i = j :=
  eq_of_read (parse?_format valid) (parse?_format valid') same

end Timestamp

namespace Transaction

variable {a b t : Transaction}

/-- Metadata that are null count as none. -/
def withoutNull (t : Transaction) : Transaction :=
  ⟨t.id, t.version, t.operation, t.asset, t.metadata.filter (· ≠ .null), t.inputs, t.outputs,
    t.timestamp⟩

theorem ofOption_filter_null (metadata : Option Json) :
    Json.ofOption (fun value => value) (metadata.filter (· ≠ .null)) =
      Json.ofOption (fun value => value) metadata := by
  cases metadata with
  | none => rfl
  | some value => by_cases null : value = .null <;> simp [Option.filter, null, Json.ofOption]

theorem filter_null_self {metadata : Option Json} (shown : ∀ value ∈ metadata, value ≠ .null) :
    metadata.filter (· ≠ .null) = metadata := by
  cases metadata with
  | none => rfl
  | some value => simp [Option.filter, shown value rfl]

theorem filter_null_eq {m m' : Option Json}
    (same : Json.ofOption (fun value => value) m = Json.ofOption (fun value => value) m') :
    m.filter (· ≠ .null) = m'.filter (· ≠ .null) := by
  cases m <;> cases m' <;> simp_all [Option.filter, Json.ofOption]

theorem withoutNull_unsigned (t : Transaction) :
    t.withoutNull.unsigned.toJson = t.unsigned.toJson := by
  simp only [toJson, unsigned, withoutNull, ofOption_filter_null]

theorem withoutNull_signingBytes (t : Transaction) :
    t.withoutNull.signingBytes = t.signingBytes := by
  simp only [signingBytes, signingText, withoutNull_unsigned]

theorem withoutNull_calculateId (t : Transaction) :
    t.withoutNull.calculateId = t.calculateId := by
  have same : (t.withoutNull.unsigned.withId "").toJson = (t.unsigned.withId "").toJson :=
    withoutNull_unsigned (t.withId "")
  rw [calculateId, same, ← calculateId]

theorem withoutNull_hasValidId (t : Transaction) : t.withoutNull.hasValidId = t.hasValidId := by
  rw [hasValidId, withoutNull_calculateId]
  rfl

theorem withoutNull_isFulfilled (t : Transaction) :
    t.withoutNull.isFulfilled = t.isFulfilled := by
  rw [isFulfilled, withoutNull_signingBytes]
  rfl

/-- Fractions are given in their normal form, and the time is one that clocks show. -/
structure Proper (t : Transaction) : Prop where
  asset : t.asset.Numbers Number.Normal
  metadata : ∀ value ∈ t.metadata, value.Numbers Number.Normal
  timestamp : t.timestamp.Valid

theorem Proper.numbers (proper : t.Proper) : t.toJson.Numbers Number.Normal := by
  have metadata : (Json.ofOption (fun value => value) t.metadata).Numbers Number.Normal := by
    have all := proper.metadata
    cases given : t.metadata with
    | none => trivial
    | some value => exact all value given
  have inputs : ItemNumbers Number.Normal (t.inputs.map Input.toJson) :=
    itemNumbers_map.2 fun i _ => i.numbers_toJson
  have outputs : ItemNumbers Number.Normal (t.outputs.map Output.toJson) :=
    itemNumbers_map.2 fun o _ => o.numbers_toJson
  exact ⟨trivial, trivial, trivial, proper.asset, metadata, inputs, outputs, trivial, trivial⟩

theorem toJson_injective (proper : a.Proper) (proper' : b.Proper) (same : a.toJson = b.toJson) :
    a.withoutNull = b.withoutNull := by
  simp only [toJson, object.injEq, List.cons.injEq, Prod.mk.injEq, string.injEq, array.injEq,
    true_and, and_true] at same
  obtain ⟨id, version, operation, asset, metadata, inputs, outputs, timestamp⟩ := same
  have operations : a.operation = b.operation :=
    eq_of_read a.operation.ofName?_name b.operation.ofName?_name operation
  have inputs := List.map_injective_iff.2 Input.toJson_injective inputs
  have outputs := List.map_injective_iff.2 Output.toJson_injective outputs
  have times := Timestamp.format_injective proper.timestamp proper'.timestamp timestamp
  simp only [withoutNull, id, version, operations, asset, filter_null_eq metadata, inputs,
    outputs, times]

def cup (metadata : Option Json) (fulfillment : Option String) : Transaction :=
  ⟨"", "1.0", .create,
    .object [("handles", .ofUInt32 2), ("marks", .array [.string "\"tin\"", .bool true])],
    metadata, [⟨["smith"], some ⟨"ore", 0⟩, fulfillment⟩],
    [⟨1, ⟨⟨40, .fulfillment, 2, none, some [⟨32, .fulfillment, 4, some "smith", none, none, some 1,
      none⟩], some 1, none, none⟩, "cc:"⟩, ["smith"]⟩], ⟨0, 5000000⟩⟩

theorem cup_valid (metadata : Option Json) (fulfillment : Option String) :
    (cup metadata fulfillment).timestamp.Valid := by
  have valid : (⟨0, 5000000⟩ : Instant).Valid := ⟨by decide, by decide, by decide⟩
  exact valid

end Transaction

end CryptoConditions
