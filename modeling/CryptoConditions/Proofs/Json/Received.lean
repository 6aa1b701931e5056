import Mathlib.Data.String.Basic
import CryptoConditions.Proofs.Json.Meaning
import CryptoConditions.Proofs.Json.Rounding

/-! What is read as a value. Its fractions are in their normal form, the fields of its objects are
in order, and it is nested no deeper than was allowed. -/

namespace CryptoConditions.Json

variable {p : Number → Prop} {room : Nat}

theorem fits_array {items : List Json} (each : ∀ item ∈ items, item.Fits p room) :
    (array items).Fits p (room + 1) := by
  have all : ItemNumbers p items ∧ ItemsOrdered items ∧ itemsDepth items ≤ room := by
    induction items with
    | nil => exact ⟨trivial, trivial, Nat.zero_le room⟩
    | cons item items ih =>
      rw [List.forall_mem_cons] at each
      obtain ⟨numbers, ordered, depth⟩ := ih each.2
      exact ⟨⟨each.1.numbers, numbers⟩, ⟨each.1.ordered, ordered⟩,
        Nat.max_le.2 ⟨each.1.depth, depth⟩⟩
  exact ⟨all.1, all.2.1, Nat.succ_le_succ all.2.2⟩

structure FieldsFit (p : Number → Prop) (room : Nat) (fields : List (String × Json)) : Prop where
  sorted : (fields.map Prod.fst).Pairwise (· < ·)
  each : ∀ field ∈ fields, field.2.Fits p room

theorem FieldsFit.nil : FieldsFit p room [] :=
  ⟨.nil, by simp⟩

theorem fits_object {fields : List (String × Json)} (fit : FieldsFit p room fields) :
    (object fields).Fits p (room + 1) := by
  obtain ⟨sorted, each⟩ := fit
  have all : FieldNumbers p fields ∧ FieldsOrdered fields ∧ fieldsDepth fields ≤ room := by
    clear sorted
    induction fields with
    | nil => exact ⟨trivial, trivial, Nat.zero_le room⟩
    | cons field fields ih =>
      rw [List.forall_mem_cons] at each
      obtain ⟨numbers, ordered, depth⟩ := ih each.2
      exact ⟨⟨each.1.numbers, numbers⟩, ⟨each.1.ordered, ordered⟩,
        Nat.max_le.2 ⟨each.1.depth, depth⟩⟩
  exact ⟨all.1, ⟨sorted, all.2.1⟩, Nat.succ_le_succ all.2.2⟩

section Insertion

variable {name : String} {value : Json} {known : List (String × Json)}

theorem mem_insertField {field : String × Json} (mem : field ∈ insertField name value known) :
    field = (name, value) ∨ field ∈ known := by
  induction known with
  | nil => exact .inl (List.mem_singleton.1 mem)
  | cons other known ih =>
    rw [insertField] at mem
    split at mem
    · exact List.mem_cons.1 mem
    · split at mem
      · exact (List.mem_cons.1 mem).imp_right (List.mem_cons_of_mem _)
      · rcases List.mem_cons.1 mem with same | mem
        · exact .inr (List.mem_cons.2 (.inl same))
        · exact (ih mem).imp_right (List.mem_cons_of_mem _)

theorem insertField_sorted (sorted : (known.map Prod.fst).Pairwise (· < ·)) :
    ((insertField name value known).map Prod.fst).Pairwise (· < ·) := by
  induction known with
  | nil => exact List.pairwise_singleton _ _
  | cons other known ih =>
    obtain ⟨key, kept⟩ := other
    rw [List.map_cons, List.pairwise_cons] at sorted
    obtain ⟨first, others⟩ := sorted
    rw [insertField]
    split
    · next before =>
      simp only [List.map_cons, List.pairwise_cons, List.forall_mem_cons]
      exact ⟨⟨before, fun later mem => before.trans (first later mem)⟩, first, others⟩
    split
    · next same =>
      rw [List.map_cons, List.pairwise_cons, same]
      exact ⟨first, others⟩
    · next before different =>
      have after : key < name := lt_of_le_of_ne (not_lt.1 before) (Ne.symm different)
      rw [List.map_cons, List.pairwise_cons]
      refine ⟨fun later mem => ?_, ih others⟩
      obtain ⟨field, inside, rfl⟩ := List.mem_map.1 mem
      rcases mem_insertField inside with rfl | inside
      · exact after
      · exact first _ (List.mem_map_of_mem inside)

theorem FieldsFit.insert (fit : FieldsFit p room known) (fits : value.Fits p room) :
    FieldsFit p room (insertField name value known) := by
  refine ⟨insertField_sorted fit.sorted, fun field mem => ?_⟩
  rcases mem_insertField mem with rfl | mem
  · exact fits
  · exact fit.each field mem

end Insertion

mutual

theorem fits_of_meaning? : (w : Written) → (room : Nat) → {value : Json} →
    meaning? room w = some value → value.Fits Number.Normal room
  | .null, room, _, read => by
    rw [meaning?] at read
    cases read
    exact ⟨trivial, trivial, Nat.zero_le room⟩
  | .bool _, room, _, read => by
    rw [meaning?] at read
    cases read
    exact ⟨trivial, trivial, Nat.zero_le room⟩
  | .number literal, room, _, read => by
    rw [meaning?] at read
    obtain ⟨n, value, rfl⟩ := Option.map_eq_some_iff.1 read
    exact ⟨Literal.normal_of_value? value, trivial, Nat.zero_le room⟩
  | .string _, room, _, read => by
    rw [meaning?] at read
    obtain ⟨_, _, rfl⟩ := Option.map_eq_some_iff.1 read
    exact ⟨trivial, trivial, Nat.zero_le room⟩
  | .array _, 0, _, read => by
    rw [meaning?] at read
    cases read
  | .array items, room + 1, _, read => by
    rw [meaning?] at read
    obtain ⟨values, all, rfl⟩ := Option.map_eq_some_iff.1 read
    exact fits_array (fits_of_itemsMeaning? items room all)
  | .object _, 0, _, read => by
    rw [meaning?] at read
    cases read
  | .object fields, room + 1, _, read => by
    rw [meaning?] at read
    obtain ⟨values, all, rfl⟩ := Option.map_eq_some_iff.1 read
    exact fits_object (fit_of_fieldsMeaning? fields room .nil all)

theorem fits_of_itemsMeaning? : (items : List Written) → (room : Nat) → {values : List Json} →
    itemsMeaning? room items = some values → ∀ value ∈ values, value.Fits Number.Normal room
  | [], _, _, read => by
    rw [itemsMeaning?] at read
    cases read
    nofun
  | item :: items, room, _, read => by
    simp only [itemsMeaning?, Option.bind_eq_bind, Option.bind_eq_some_iff] at read
    obtain ⟨value, first, values, others, same⟩ := read
    cases same
    exact List.forall_mem_cons.2
      ⟨fits_of_meaning? item room first, fits_of_itemsMeaning? items room others⟩

theorem fit_of_fieldsMeaning? : (fields : List (List Piece × Written)) → (room : Nat) →
    {known all : List (String × Json)} → FieldsFit Number.Normal room known →
    fieldsMeaning? room fields known = some all → FieldsFit Number.Normal room all
  | [], _, _, _, fit, read => by
    rw [fieldsMeaning?] at read
    cases read
    exact fit
  | (_, field) :: fields, room, _, _, fit, read => by
    simp only [fieldsMeaning?, Option.bind_eq_bind, Option.bind_eq_some_iff] at read
    obtain ⟨name, _, value, first, others⟩ := read
    exact fit_of_fieldsMeaning? fields room (fit.insert (fits_of_meaning? field room first)) others

end

theorem fits_of_parse? {text : String} {value : Json} (read : parse? text = some value)
    (integers : value.Numbers Number.IsInteger) (shallow : value.depth ≤ room) :
    value.Fits Number.IsInteger room := by
  obtain ⟨_, _, meant⟩ := Option.bind_eq_some_iff.1 read
  exact ⟨integers, (fits_of_meaning? _ _ meant).ordered, shallow⟩

theorem ne_null_of_meaning? {room : Nat} {w : Written} {value : Json} (shown : w ≠ .null)
    (read : meaning? room w = some value) : value ≠ .null := by
  rintro rfl
  cases w with
  | null => exact shown rfl
  | bool => simp [meaning?] at read
  | number => simp [meaning?] at read
  | string => simp [meaning?] at read
  | array => cases room <;> simp [meaning?] at read
  | object => cases room <;> simp [meaning?] at read

end CryptoConditions.Json
