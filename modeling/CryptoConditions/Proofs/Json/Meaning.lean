import CryptoConditions.Proofs.Json.Written

/-! What is written for a value means the value, if its numbers are integers, the fields of its
objects are in the order of their names, and it is not nested too deep. -/

namespace CryptoConditions

namespace Number

def IsInteger : Number → Prop
  | integer .. => True
  | float .. => False

theorem IsInteger.normal {n : Number} (isInteger : n.IsInteger) : n.Normal := by
  cases n with
  | integer => trivial
  | float => cases isInteger

theorem value?_literal {n : Number} (isInteger : n.IsInteger) : n.literal.value? = some n := by
  cases n with
  | float => cases isInteger
  | integer n fits =>
    have whole : (literal (integer n fits)).whole? = some n.natAbs := by
      simp [literal, Literal.whole?, Numeral.value_digits]
    have value : (if (literal (integer n fits)).negative = true then -(n.natAbs : Int)
        else n.natAbs) = n := by
      simp only [literal, decide_eq_true_eq]
      split <;> omega
    have sign : ¬ ((literal (integer n fits)).negative = true ∧ n.natAbs = 0) := by
      simp only [literal, decide_eq_true_eq]
      omega
    simp only [Literal.value?, Literal.integer?, whole, Option.bind_eq_bind, Option.bind_some,
      if_neg sign]
    generalize (if (literal (integer n fits)).negative = true then -(n.natAbs : Int)
      else n.natAbs) = i at value
    subst value
    rw [dif_pos fits]
    rfl

end Number

namespace Json

mutual

def depth : Json → Nat
  | null | bool _ | number _ | string _ => 0
  | array items => itemsDepth items + 1
  | object fields => fieldsDepth fields + 1

def itemsDepth : List Json → Nat
  | [] => 0
  | item :: items => max (depth item) (itemsDepth items)

def fieldsDepth : List (String × Json) → Nat
  | [] => 0
  | (_, value) :: fields => max (depth value) (fieldsDepth fields)

end

mutual

def Ordered : Json → Prop
  | null | bool _ | number _ | string _ => True
  | array items => ItemsOrdered items
  | object fields => (fields.map Prod.fst).Pairwise (· < ·) ∧ FieldsOrdered fields

def ItemsOrdered : List Json → Prop
  | [] => True
  | item :: items => Ordered item ∧ ItemsOrdered items

def FieldsOrdered : List (String × Json) → Prop
  | [] => True
  | (_, value) :: fields => Ordered value ∧ FieldsOrdered fields

end

/-- All numbers are of a kind, the fields of objects are in order, and nothing is nested in more
than `room` levels. -/
structure Fits (p : Number → Prop) (room : Nat) (value : Json) : Prop where
  numbers : value.Numbers p
  ordered : value.Ordered
  depth : value.depth ≤ room

theorem fieldsDepth_append (fields more : List (String × Json)) :
    fieldsDepth (fields ++ more) = max (fieldsDepth fields) (fieldsDepth more) := by
  induction fields with
  | nil => simp [fieldsDepth]
  | cons field fields ih => rw [List.cons_append, fieldsDepth, fieldsDepth, ih, Nat.max_assoc]

theorem insertField_greatest {name : String} {value : Json} {known : List (String × Json)}
    (greatest : ∀ other ∈ known, other.1 < name) :
    insertField name value known = known ++ [(name, value)] := by
  induction known with
  | nil => rfl
  | cons field known ih =>
    obtain ⟨other, kept⟩ := field
    rw [List.forall_mem_cons] at greatest
    have different : name ≠ other := by
      rintro rfl
      exact String.lt_irrefl _ greatest.1
    rw [insertField, if_neg (String.lt_asymm greatest.1), if_neg different, ih greatest.2]
    rfl

mutual

theorem meaning?_written : (value : Json) → (room : Nat) → value.Numbers Number.IsInteger →
    value.Ordered → value.depth ≤ room → meaning? room value.written = some value
  | null, _, _, _, _ => by rw [written, meaning?]
  | bool _, _, _, _, _ => by rw [written, meaning?]
  | number n, _, integers, _, _ => by
    rw [written, meaning?, Number.value?_literal integers, Option.map_some]
  | string text, _, _, _, _ => by rw [written, meaning?, text?_map_piece, Option.map_some]
  | array items, room, integers, ordered, within => by
    obtain ⟨room, rfl⟩ : ∃ less, room = less + 1 := ⟨room - 1, by rw [depth] at within; omega⟩
    have all := itemsMeaning?_written items room integers ordered (Nat.le_of_succ_le_succ within)
    rw [written, meaning?, all, Option.map_some]
  | object fields, room, integers, ordered, within => by
    obtain ⟨room, rfl⟩ : ∃ less, room = less + 1 := ⟨room - 1, by rw [depth] at within; omega⟩
    have all := fieldsMeaning?_written fields room [] integers ordered.2 ordered.1 nofun
      (Nat.le_of_succ_le_succ within)
    rw [written, meaning?, all, Option.map_some, List.nil_append]

theorem itemsMeaning?_written : (items : List Json) → (room : Nat) →
    ItemNumbers Number.IsInteger items → ItemsOrdered items → itemsDepth items ≤ room →
    itemsMeaning? room (writtenItems items) = some items
  | [], _, _, _, _ => by rw [writtenItems, itemsMeaning?]
  | item :: items, room, integers, ordered, within => by
    rw [itemsDepth, Nat.max_le] at within
    have first := meaning?_written item room integers.1 ordered.1 within.1
    have others := itemsMeaning?_written items room integers.2 ordered.2 within.2
    simp [writtenItems, itemsMeaning?, first, others]

theorem fieldsMeaning?_written : (fields : List (String × Json)) → (room : Nat) →
    (known : List (String × Json)) → FieldNumbers Number.IsInteger fields → FieldsOrdered fields →
    (fields.map Prod.fst).Pairwise (· < ·) →
    (∀ other ∈ known, ∀ name ∈ fields.map Prod.fst, other.1 < name) →
    fieldsDepth fields ≤ room →
    fieldsMeaning? room (writtenFields fields) known = some (known ++ fields)
  | [], _, _, _, _, _, _, _ => by rw [writtenFields, fieldsMeaning?, List.append_nil]
  | (name, value) :: fields, room, known, integers, ordered, sorted, behind, within => by
    rw [fieldsDepth, Nat.max_le] at within
    rw [List.map_cons, List.pairwise_cons] at sorted
    have first := meaning?_written value room integers.1 ordered.1 within.1
    have placed : insertField name value known = known ++ [(name, value)] :=
      insertField_greatest fun other mem => behind other mem name List.mem_cons_self
    have behind' : ∀ other ∈ known ++ [(name, value)], ∀ later ∈ fields.map Prod.fst,
        other.1 < later := by
      intro other mem later inside
      rcases List.mem_append.1 mem with mem | mem
      · exact behind other mem later (List.mem_cons_of_mem _ inside)
      · rw [List.mem_singleton.1 mem]
        exact sorted.1 later inside
    have others := fieldsMeaning?_written fields room (known ++ [(name, value)]) integers.2
      ordered.2 sorted.2 behind' within.2
    rw [List.append_assoc, List.singleton_append] at others
    simp [writtenFields, fieldsMeaning?, text?_map_piece, first, placed, others]

end

namespace Fits

variable {p : Number → Prop} {value : Json} {room more : Nat}

theorem mono (fits : value.Fits p room) (le : room ≤ more) : value.Fits p more :=
  ⟨fits.numbers, fits.ordered, fits.depth.trans le⟩

theorem normal (fits : value.Fits Number.IsInteger room) : value.Numbers Number.Normal :=
  fits.numbers.mono (fun _ => Number.IsInteger.normal) value

theorem read (fits : value.Fits Number.IsInteger room) :
    meaning? room value.written = some value :=
  meaning?_written value room fits.numbers fits.ordered fits.depth

end Fits

end Json

end CryptoConditions
