import CryptoConditions.Document.Basic
import CryptoConditions.Proofs.Json.Record

/-! Descriptions of conditions are read back from what is written for them, as far as they are
not nested too deep. None that is read is. -/

namespace CryptoConditions

theorem DetailsKind.ofName?_name (kind : DetailsKind) : ofName? kind.name = some kind := by
  cases kind <;> decide

namespace Details

open Json

section Fields

variable {α : Type} {f : α → Json} {o : Option α}

theorem filter_field (name other : String) :
    (field name f o).filter (fun entry => entry.1 == other) =
      if name = other then field name f o else [] := by
  cases o with
  | none => simp [field]
  | some a => by_cases same : name = other <;> simp [field, same]

theorem slotFrom?_field (name : String) : slotFrom? (field name f o) = some (slotOf f o) := by
  cases o <;> rfl

theorem fieldsDepth_field {name : String} (flat : ∀ a, (f a).depth = 0) :
    fieldsDepth (field name f o) = 0 := by
  cases o with
  | none => rfl
  | some a => simp [field, fieldsDepth, flat]

theorem fieldNumbers_field {name : String} {p : Number → Prop} :
    FieldNumbers p (field name f o) ↔ ∀ a ∈ o, (f a).Numbers p := by
  cases o <;> simp [field, FieldNumbers]

end Fields

def partsJson (subs : List Details) : Json := .array (listToJson subs)

theorem toJson_eq (d : Details) : d.toJson =
    .object ([("bitmask", .ofUInt64 d.features), ("type", .string d.kind.name),
      ("type_id", .ofUInt64 d.type.toUInt64)] ++ field "public_key" .string d.publicKey ++
      field "subfulfillments" partsJson d.subs ++ field "threshold" .ofUInt32 d.threshold ++
      field "weight" .ofUInt32 d.weight ++ field "uri" .string d.uri) := by
  obtain ⟨features, kind, type, publicKey, subs, threshold, weight, uri⟩ := d
  cases subs <;> rfl

theorem depth_toJson (d : Details) : d.toJson.depth =
    fieldsDepth (field "subfulfillments" partsJson d.subs) + 1 := by
  have string (name : String) (o : Option String) : fieldsDepth (field name .string o) = 0 :=
    fieldsDepth_field fun _ => rfl
  have number (name : String) (o : Option UInt32) : fieldsDepth (field name .ofUInt32 o) = 0 :=
    fieldsDepth_field fun _ => rfl
  rw [toJson_eq, depth]
  simp [fieldsDepth_append, fieldsDepth, ofUInt64, depth, string, number]

theorem slots?_toJson (d : Details) : slots? fieldNames d.toJson.written =
    some [.given (written (.ofUInt64 d.features)), .given (written (.string d.kind.name)),
      .given (written (.ofUInt64 d.type.toUInt64)), slotOf .string d.publicKey,
      slotOf partsJson d.subs, slotOf .ofUInt32 d.threshold, slotOf .ofUInt32 d.weight,
      slotOf .string d.uri] := by
  rw [toJson_eq, slots?_written]
  simp [fieldNames, slotIn?, filter_field, slotFrom?_single, slotFrom?_field]

theorem ofFields?_toJson (d : Details) {parts : Written → Option (List Details)} (room : Nat)
    (read : ∀ subs ∈ d.subs, parts (partsJson subs).written = some subs) :
    ofFields? parts room d.toJson.written = some d := by
  have strings (o : Option String) : (slotOf .string o).omissible Decoder.string room = some o :=
    omissible_slotOf (fun _ _ => nofun) fun text _ => string_written text
  have numbers (o : Option UInt32) : (slotOf .ofUInt32 o).omissible Decoder.uint32 room = some o :=
    omissible_slotOf (fun _ _ => nofun) fun n _ => uint32_written n
  have subs : (slotOf partsJson d.subs).omissible (fun _ => parts) room = some d.subs :=
    omissible_slotOf (fun _ _ => nofun) read
  have type : Decoder.unsigned 16 room (written (.ofUInt64 d.type.toUInt64)) =
      some d.type.toNat := by
    have fits : d.type.toUInt64.toNat < 2 ^ 16 := by
      rw [UInt16.toNat_toUInt64]
      exact d.type.toNat_lt
    rw [unsigned_written fits, UInt16.toNat_toUInt64]
  simp [ofFields?, slots?_toJson, Slot.required, uint64_written,
    choice_written (DetailsKind.ofName?_name d.kind), type, strings, numbers, subs]
  cases d
  rfl

mutual

theorem ofJson?_toJson : (d : Details) → (room : Nat) → d.toJson.depth ≤ room →
    ofJson? room d.toJson.written = some d
  | ⟨_, _, _, _, none, _, _, _⟩, 0, within => by simp [depth_toJson] at within
  | ⟨_, _, _, _, none, _, _, _⟩, 1, _ => ofFields?_toJson _ 0 nofun
  | ⟨_, _, _, _, none, _, _, _⟩, room + 2, _ => ofFields?_toJson _ (room + 1) nofun
  | ⟨_, _, _, _, some subs, _, _, _⟩, 0, within => by simp [depth_toJson] at within
  | ⟨_, _, _, _, some subs, _, _, _⟩, 1, within => by
    simp [depth_toJson, field, fieldsDepth, partsJson, depth] at within
  | ⟨_, _, _, _, some subs, _, _, _⟩, room + 2, within => by
    have less : itemsDepth (listToJson subs) ≤ room := by
      simpa [depth_toJson, field, fieldsDepth, partsJson, depth] using within
    refine ofFields?_toJson _ (room + 1) fun _ same => ?_
    cases same
    exact mapM_listToJson subs room less

theorem mapM_listToJson : (ds : List Details) → (room : Nat) →
    itemsDepth (listToJson ds) ≤ room →
    (writtenItems (listToJson ds)).mapM (ofJson? room) = some ds
  | [], _, _ => rfl
  | d :: ds, room, within => by
    rw [listToJson, itemsDepth, Nat.max_le] at within
    rw [listToJson, writtenItems, List.mapM_cons, ofJson?_toJson d room within.1,
      mapM_listToJson ds room within.2]
    rfl

end

mutual

theorem numbers_toJson : (d : Details) → d.toJson.Numbers Number.Normal
  | ⟨_, _, _, _, none, _, _, _⟩ => by
    simp [toJson_eq, Numbers, fieldNumbers_append, fieldNumbers_field, FieldNumbers, ofUInt32,
      numbers_ofUInt64]
  | ⟨_, _, _, _, some subs, _, _, _⟩ => by
    have parts := numbers_listToJson subs
    simp [toJson_eq, Numbers, fieldNumbers_append, fieldNumbers_field, FieldNumbers, ofUInt32,
      numbers_ofUInt64, partsJson, parts]

theorem numbers_listToJson : (ds : List Details) → ItemNumbers Number.Normal (listToJson ds)
  | [] => trivial
  | d :: ds => ⟨numbers_toJson d, numbers_listToJson ds⟩

end

section Received

theorem itemsDepth_listToJson {ds : List Details} {room : Nat}
    (each : ∀ d ∈ ds, d.toJson.depth ≤ room) : itemsDepth (listToJson ds) ≤ room := by
  induction ds with
  | nil => exact Nat.zero_le room
  | cons d ds ih =>
    rw [List.forall_mem_cons] at each
    rw [listToJson, itemsDepth]
    exact Nat.max_le.2 ⟨each.1, ih each.2⟩

theorem parts_of_ofFields? {parts : Written → Option (List Details)} {room : Nat} {w : Written}
    {d : Details} (read : ofFields? parts room w = some d) :
    ∀ subs ∈ d.subs, ∃ w', parts w' = some subs := by
  simp only [ofFields?, Option.bind_eq_bind, Option.bind_eq_some_iff] at read
  obtain ⟨slots, _, read⟩ := read
  split at read
  · simp only [Option.bind_eq_some_iff, Option.pure_def] at read
    obtain ⟨_, _, _, _, _, _, _, _, subs, found, _, _, _, _, _, _, same⟩ := read
    cases same
    intro parts given
    obtain ⟨w, _, from_⟩ := read_of_omissible found parts given
    exact ⟨w, from_⟩
  · cases read

theorem depth_of_subs {d : Details} {room : Nat}
    (each : ∀ subs ∈ d.subs, ∀ sub ∈ subs, sub.toJson.depth ≤ room) :
    d.toJson.depth ≤ room + 2 := by
  rw [depth_toJson]
  cases given : d.subs with
  | none => simp [field, fieldsDepth]
  | some subs =>
    have within := itemsDepth_listToJson (each subs given)
    simp [field, fieldsDepth, partsJson, depth, within]

theorem depth_of_ofJson? : (room : Nat) → {w : Written} → {d : Details} →
    ofJson? room w = some d → d.toJson.depth ≤ room
  | 0, _, _, read => by cases read
  | 1, _, d, read => by
    have none : d.subs = none := by
      cases given : d.subs with
      | none => rfl
      | some subs =>
        obtain ⟨_, found⟩ := parts_of_ofFields? read subs given
        cases found
    simp [depth_toJson, none, field, fieldsDepth]
  | room + 2, _, d, read => by
    refine depth_of_subs fun subs given sub mem => ?_
    obtain ⟨w, found⟩ := parts_of_ofFields? read subs given
    unfold items? at found
    split at found
    · obtain ⟨_, part⟩ := exists_of_mapM found sub mem
      exact depth_of_ofJson? room part
    · cases found

end Received

end Details

namespace ConditionDocument

open Json

theorem depth_toJson (c : ConditionDocument) : c.toJson.depth = c.details.toJson.depth + 1 := by
  simp [toJson, depth, fieldsDepth]

theorem ofJson?_toJson {c : ConditionDocument} {room : Nat} (within : c.toJson.depth ≤ room) :
    ofJson? room c.toJson.written = some c := by
  rw [depth_toJson] at within
  obtain ⟨room, rfl⟩ : ∃ less, room = less + 1 := ⟨room - 1, by omega⟩
  have details := c.details.ofJson?_toJson room (Nat.le_of_succ_le_succ within)
  have slots : slots? ["details", "uri"] c.toJson.written =
      some [.given c.details.toJson.written, .given (written (.string c.uri))] := by
    rw [toJson, slots?_written]
    simp [slotIn?, slotFrom?_single]
  simp [ofJson?, slots, Slot.required, details, string_written]

theorem depth_of_ofJson? {room : Nat} {w : Written} {c : ConditionDocument}
    (read : ofJson? room w = some c) : c.details.toJson.depth + 1 ≤ room := by
  cases room with
  | zero => cases read
  | succ room =>
    simp only [ofJson?, Option.bind_eq_bind, Option.bind_eq_some_iff] at read
    obtain ⟨_, _, read⟩ := read
    split at read
    · simp only [Option.bind_eq_some_iff, Option.pure_def] at read
      obtain ⟨details, found, _, _, same⟩ := read
      cases same
      obtain ⟨_, from_⟩ := read_of_required found
      exact Nat.succ_le_succ (Details.depth_of_ofJson? room from_)
    · cases read

end ConditionDocument

end CryptoConditions
