import CryptoConditions.Json.Record
import CryptoConditions.Proofs.Json.Meaning

/-! What decoders make of what is written for a record. A field is found by its name, and each
way of reading comes to the value that was written. What is read of any field was read from
something. -/

namespace CryptoConditions.Json

theorem writtenItems_eq (items : List Json) : writtenItems items = items.map written := by
  induction items with
  | nil => rfl
  | cons item items ih => rw [writtenItems, ih, List.map_cons]

section Fields

def slotFrom? : List (String × Json) → Option Slot
  | [] => some .absent
  | [(_, value)] => some (.given value.written)
  | _ => none

theorem slotFrom?_single (name : String) (value : Json) :
    slotFrom? [(name, value)] = some (.given value.written) := rfl

def slotIn? (fields : List (String × Json)) (name : String) : Option Slot :=
  slotFrom? (fields.filter fun field => field.1 == name)

theorem namedFields_written (fields : List (String × Json)) :
    namedFields (writtenFields fields) =
      some (fields.map fun field => (field.1, field.2.written)) := by
  induction fields with
  | nil => rfl
  | cons field fields ih =>
    rw [namedFields] at ih ⊢
    simp [writtenFields, text?_map_piece, ih]

theorem slotNamed?_written (fields : List (String × Json)) (name : String) :
    slotNamed? (fields.map fun field => (field.1, field.2.written)) name =
      slotIn? fields name := by
  rw [slotNamed?, slotIn?, List.filter_map]
  have same : ((fun field : String × Written => field.1 == name) ∘
      fun field : String × Json => (field.1, field.2.written)) =
      fun field => field.1 == name := rfl
  rw [same]
  generalize fields.filter (fun field : String × Json => field.1 == name) = found
  rcases found with _ | ⟨first, _ | ⟨second, rest⟩⟩ <;> rfl

theorem slots?_written (names : List String) (fields : List (String × Json)) :
    slots? names (written (.object fields)) = names.mapM (slotIn? fields) := by
  rw [written, slots?, namedFields_written]
  simp only [Option.bind_eq_bind, Option.bind_some]
  congr 1
  funext name
  exact slotNamed?_written fields name

/-- What stands for a field that is written only if there is something to write. -/
def slotOf {α : Type} (f : α → Json) : Option α → Slot
  | none => .absent
  | some a => .given (f a).written

end Fields

section Decoders

open Decoder

variable {α : Type} {room : Nat} {f : α → Json} {decode : Decoder α}

theorem string_written (text : String) :
    Decoder.string room (written (.string text)) = some text := by
  rw [written, Decoder.string, text?_map_piece]

theorem unsigned_written {bits : Nat} {n : UInt64} (fits : n.toNat < 2 ^ bits) :
    unsigned bits room (written (.ofUInt64 n)) = some n.toNat := by
  have positive : ¬ (n.toNat : Int) < 0 := by omega
  simp [ofUInt64, written, unsigned, Number.ofUInt64, Number.literal, Literal.unsigned?,
    Literal.whole?, Numeral.value_digits, guard, fits, positive]

theorem uint64_written (n : UInt64) : uint64 room (written (.ofUInt64 n)) = some n := by
  rw [uint64, unsigned_written n.toNat_lt, Option.map_some, UInt64.ofNat_toNat]

theorem uint32_written (n : UInt32) : uint32 room (written (.ofUInt32 n)) = some n := by
  have small : n.toUInt64.toNat < 2 ^ 32 := by
    rw [UInt32.toNat_toUInt64]
    exact n.toNat_lt
  rw [uint32, ofUInt32, unsigned_written small, UInt32.toNat_toUInt64, Option.map_some,
    UInt32.ofNat_toNat]

theorem choice_written {ofName? : String → Option α} {name : String} {a : α}
    (known : ofName? name = some a) : choice ofName? room (written (.string name)) = some a := by
  simp [written, choice, text?_map_piece, known]

theorem list_written {list : List α} (each : ∀ a ∈ list, decode room (f a).written = some a) :
    Decoder.list decode (room + 1) (written (.array (list.map f))) = some list := by
  rw [written, Decoder.list, writtenItems_eq, List.map_map]
  induction list with
  | nil => rfl
  | cons a list ih =>
    rw [List.forall_mem_cons] at each
    rw [List.map_cons, List.mapM_cons, Function.comp_apply, each.1, ih each.2]
    rfl

theorem written_ne_null {value : Json} (shown : value ≠ .null) : value.written ≠ .null := by
  cases value with
  | null => exact absurd rfl shown
  | _ => nofun

theorem nullable_written {a : α} (shown : f a ≠ .null) (read : decode room (f a).written = some a) :
    nullable decode room (f a).written = some (some a) := by
  have different := written_ne_null shown
  unfold nullable
  split
  · next null => exact absurd null different
  · rw [read, Option.map_some]

theorem nullable_ofOption {o : Option α} (shown : ∀ a ∈ o, f a ≠ .null)
    (read : ∀ a ∈ o, decode room (f a).written = some a) :
    nullable decode room (written (.ofOption f o)) = some o := by
  cases o with
  | none => rfl
  | some a => exact nullable_written (shown a rfl) (read a rfl)

theorem omissible_slotOf {o : Option α} (shown : ∀ a ∈ o, f a ≠ .null)
    (read : ∀ a ∈ o, decode room (f a).written = some a) :
    (slotOf f o).omissible decode room = some o := by
  cases o with
  | none => rfl
  | some a => exact nullable_written (shown a rfl) (read a rfl)

end Decoders

section Received

variable {α : Type} {decode : Decoder α} {room : Nat} {slot : Slot}

theorem read_of_required {a : α} (read : slot.required decode room = some a) :
    ∃ w, decode room w = some a := by
  cases slot with
  | given w => exact ⟨w, read⟩
  | absent | cut => cases read

theorem read_of_omissible {o : Option α} (read : slot.omissible decode room = some o) :
    ∀ a ∈ o, ∃ w, w ≠ .null ∧ decode room w = some a := by
  rintro a ⟨⟩
  cases slot with
  | given w =>
    rw [Slot.omissible] at read
    unfold Decoder.nullable at read
    split at read
    · cases read
    · next shown =>
      obtain ⟨_, found, same⟩ := Option.map_eq_some_iff.1 read
      cases same
      exact ⟨w, shown, found⟩
  | absent | cut => cases read

theorem exists_of_mapM {β : Type} {f : β → Option α} {list : List β} {results : List α}
    (ok : list.mapM f = some results) : ∀ a ∈ results, ∃ b, f b = some a := by
  induction list generalizing results with
  | nil =>
    cases ok
    nofun
  | cons b list ih =>
    simp only [List.mapM_cons, Option.bind_eq_bind, Option.bind_eq_some_iff, Option.pure_def] at ok
    obtain ⟨a, first, rest, others, same⟩ := ok
    cases same
    exact List.forall_mem_cons.2 ⟨⟨b, first⟩, ih others⟩

theorem read_of_list {w : Written} {list : List α}
    (read : Decoder.list decode room w = some list) :
    ∃ less, room = less + 1 ∧ ∀ a ∈ list, ∃ w, decode less w = some a := by
  unfold Decoder.list at read
  split at read
  · exact ⟨_, rfl, exists_of_mapM read⟩
  · cases read

end Received

end CryptoConditions.Json
