import CryptoConditions.Proofs.Wire.Exactness

/-! Values written one after the other. Reading values of the same kinds gives them back and leaves
what stands behind them; and nothing else than what is written for values is read as these values,
at whatever place of a byte string. The lengths told beforehand are those of what is written. -/

namespace CryptoConditions.Wire

def Item.Fits : Item → Prop
  | fixed width n => n < 256 ^ width
  | length n | uint n => n < 2 ^ 64
  | octets bytes => bytes.length < 2 ^ 64

instance : DecidablePred Item.Fits
  | .fixed width n => inferInstanceAs (Decidable (n < 256 ^ width))
  | .length n | .uint n => inferInstanceAs (Decidable (n < 2 ^ 64))
  | .octets bytes => inferInstanceAs (Decidable (bytes.length < 2 ^ 64))

def Item.width : Item → Nat
  | fixed width _ => width
  | length n => lengthWidth n
  | uint n => uintLength n
  | octets bytes => octetsLength bytes.length

def Item.encodeAll (items : List Item) : Bytes :=
  items.flatMap Item.encode

def Kind.readAll : List Kind → Reader (List Item)
  | [] => pure []
  | kind :: kinds => do
    let item ← kind.read
    let items ← readAll kinds
    return item :: items

theorem Item.encode_length (item : Item) : item.encode.length = item.width := by
  cases item with
  | fixed width n => exact bigEndian_length width n
  | length n => exact length_length n
  | uint n => exact uint_length n
  | octets bytes => exact octets_length bytes

theorem byteWidth_le_iff {n width : Nat} (pos : 0 < width) :
    byteWidth n ≤ width ↔ n < 256 ^ width := by
  refine ⟨fun le => ?_, fun small => byteWidth_le small pos⟩
  exact Nat.lt_of_lt_of_le (lt_pow_byteWidth n) (Nat.pow_le_pow_right (by decide) le)

namespace Reader

variable {α : Type}

theorem fixed_eq_ok_iff {width n : Nat} {bytes rest : Bytes} :
    fixed width bytes = (.ok n, rest) ↔ n < 256 ^ width ∧ bytes = bigEndian width n ++ rest := by
  refine ⟨fun ok => (fixed_ok ok).symm, ?_⟩
  rintro ⟨small, rfl⟩
  rw [fixed_bigEndian, Nat.mod_eq_of_lt small]

theorem length_eq_ok_iff {n : Nat} {bytes rest : Bytes} :
    length bytes = (.ok n, rest) ↔ n < 2 ^ 64 ∧ bytes = Wire.length n ++ rest := by
  refine ⟨fun ok => (length_ok ok).symm, ?_⟩
  rintro ⟨small, rfl⟩
  exact length_length small rest

theorem uint_eq_ok_iff {n : Nat} {bytes rest : Bytes} :
    uint bytes = (.ok n, rest) ↔ n < 2 ^ 64 ∧ bytes = Wire.uint n ++ rest := by
  refine ⟨fun ok => (uint_ok ok).symm, ?_⟩
  rintro ⟨small, rfl⟩
  exact uint_uint small rest

theorem octets_eq_ok_iff {raw bytes rest : Bytes} :
    octets bytes = (.ok raw, rest) ↔ raw.length < 2 ^ 64 ∧ bytes = Wire.octets raw ++ rest := by
  refine ⟨fun ok => (octets_ok ok).symm, ?_⟩
  rintro ⟨small, rfl⟩
  exact octets_octets small rest

theorem map_eq_ok_iff {wrap : α → Item} {read : Reader α} {bytes rest : Bytes} {item : Item}
    (known : ∀ a, read bytes = (.ok a, rest) ↔ (wrap a).Fits ∧ bytes = (wrap a).encode ++ rest) :
    (wrap <$> read) bytes = (.ok item, rest) ↔
      (∃ a, wrap a = item) ∧ item.Fits ∧ bytes = item.encode ++ rest := by
  constructor
  · intro ok
    obtain ⟨a, mid, first, last⟩ := bind_ok ok
    obtain ⟨rfl, rfl⟩ := pure_ok last
    exact ⟨⟨a, rfl⟩, (known a).1 first⟩
  · rintro ⟨⟨a, rfl⟩, there⟩
    exact bind_of_ok ((known a).2 there) _

end Reader

theorem Kind.read_eq_ok_iff {kind : Kind} {bytes rest : Bytes} {item : Item} :
    kind.read bytes = (.ok item, rest) ↔
      item.kind = kind ∧ item.Fits ∧ bytes = item.encode ++ rest := by
  cases kind with
  | fixed width =>
    rw [Kind.read, Reader.map_eq_ok_iff fun _ => Reader.fixed_eq_ok_iff]
    cases item <;> simp [Item.kind, eq_comm]
  | length =>
    rw [Kind.read, Reader.map_eq_ok_iff fun _ => Reader.length_eq_ok_iff]
    cases item <;> simp [Item.kind]
  | uint =>
    rw [Kind.read, Reader.map_eq_ok_iff fun _ => Reader.uint_eq_ok_iff]
    cases item <;> simp [Item.kind]
  | octets =>
    rw [Kind.read, Reader.map_eq_ok_iff fun _ => Reader.octets_eq_ok_iff]
    cases item <;> simp [Item.kind]

theorem Kind.readAll_eq_ok_iff {kinds : List Kind} {bytes rest : Bytes} {items : List Item} :
    readAll kinds bytes = (.ok items, rest) ↔
      items.map Item.kind = kinds ∧ (∀ item ∈ items, item.Fits) ∧
        bytes = Item.encodeAll items ++ rest := by
  induction kinds generalizing bytes items with
  | nil =>
    constructor
    · intro ok
      obtain ⟨rfl, rfl⟩ := Reader.pure_ok ok
      exact ⟨rfl, by simp, rfl⟩
    · rintro ⟨none, _, rfl⟩
      obtain rfl := List.map_eq_nil_iff.1 none
      rfl
  | cons kind kinds ih =>
    constructor
    · intro ok
      obtain ⟨item, mid, first, then_⟩ := Reader.bind_ok ok
      obtain ⟨others, tail, more, last⟩ := Reader.bind_ok then_
      obtain ⟨rfl, rfl⟩ := Reader.pure_ok last
      obtain ⟨rfl, fits, rfl⟩ := read_eq_ok_iff.1 first
      obtain ⟨rfl, fit, rfl⟩ := ih.1 more
      exact ⟨rfl, List.forall_mem_cons.2 ⟨fits, fit⟩,
        by rw [Item.encodeAll, Item.encodeAll, List.flatMap_cons, List.append_assoc]⟩
    · rintro ⟨shape, fit, rfl⟩
      obtain ⟨item, others, rfl, rfl, rfl⟩ := List.map_eq_cons_iff.1 shape
      rw [List.forall_mem_cons] at fit
      have first : item.kind.read (Item.encodeAll (item :: others) ++ rest) =
          (.ok item, Item.encodeAll others ++ rest) :=
        read_eq_ok_iff.2 ⟨rfl, fit.1,
          by rw [Item.encodeAll, Item.encodeAll, List.flatMap_cons, List.append_assoc]⟩
      rw [readAll, Reader.bind_of_ok first, Reader.bind_of_ok (ih.2 ⟨rfl, fit.2, rfl⟩)]
      rfl

/-- What is written one after the other is read back up to what stands behind it. A read that
succeeds at a place of a byte string has passed over what is written for its value and no more.
What is written is as long as is told, in as few bytes for a number as can spell it. -/
theorem readAll_encodeAll :
    (∀ (items : List Item) (rest : Bytes), (∀ item ∈ items, item.Fits) →
      Kind.readAll (items.map Item.kind) (Item.encodeAll items ++ rest) = (.ok items, rest)) ∧
    (∀ (kind : Kind) (bytes : Bytes) (place : Nat) (item : Item) (rest : Bytes),
      kind.read (bytes.drop place) = (.ok item, rest) →
        item.kind = kind ∧ item.Fits ∧ bytes.drop place = item.encode ++ rest ∧
          rest = bytes.drop (place + item.encode.length)) ∧
    (∀ (kinds : List Kind) (bytes : Bytes) (items : List Item) (rest : Bytes),
      Kind.readAll kinds bytes = (.ok items, rest) →
        items.map Item.kind = kinds ∧ bytes = Item.encodeAll items ++ rest) ∧
    (∀ item : Item, item.encode.length = item.width) ∧
    ∀ n width : Nat, 0 < width → (byteWidth n ≤ width ↔ n < 256 ^ width) := by
  refine ⟨fun items rest fit => Kind.readAll_eq_ok_iff.2 ⟨rfl, fit, rfl⟩, ?_, ?_,
    Item.encode_length, fun _ _ => byteWidth_le_iff⟩
  · intro kind bytes place item rest ok
    obtain ⟨same, fits, parts⟩ := Kind.read_eq_ok_iff.1 ok
    refine ⟨same, fits, parts, ?_⟩
    rw [← List.drop_drop, parts, List.drop_left]
  · intro kinds bytes items rest ok
    obtain ⟨same, _, parts⟩ := Kind.readAll_eq_ok_iff.1 ok
    exact ⟨same, parts⟩

/-- A value of each kind, at lengths where the widths change. -/
def sampleItems : List Item :=
  [.fixed 2 0xffff, .length 127, .length 128, .uint 0, .uint 0x100, .uint (2 ^ 64 - 1),
    .octets (List.replicate 300 0xab), .octets []]

theorem readAll_encodeAll_sample : (∀ item ∈ sampleItems, item.Fits) ∧
    Kind.readAll (sampleItems.map Item.kind) (Item.encodeAll sampleItems ++ [0x81]) =
      (.ok sampleItems, [0x81]) ∧
    (Kind.uint.read (List.drop 1 [7, 2, 1, 0, 9]) = (.ok (.uint 0x100), [9]) ∧
      ([9] : Bytes) = List.drop (1 + (Item.uint 0x100).encode.length) [7, 2, 1, 0, 9]) ∧
    byteWidth 0x100 ≤ 2 := by
  obtain ⟨written, exact_, _, _, narrow⟩ := readAll_encodeAll
  have fit : ∀ item ∈ sampleItems, item.Fits := by
    decide +kernel
  have read : Kind.uint.read (List.drop 1 [7, 2, 1, 0, 9]) = (.ok (.uint 0x100), [9]) := by
    decide +kernel
  exact ⟨fit, written sampleItems [0x81] fit, ⟨read, (exact_ _ _ _ _ _ read).2.2.2⟩,
    (narrow 0x100 2 (by decide)).2 (by decide)⟩

end CryptoConditions.Wire
