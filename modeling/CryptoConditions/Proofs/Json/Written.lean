import CryptoConditions.Proofs.Json.Number
import CryptoConditions.Proofs.Json.Token
import CryptoConditions.Proofs.Steps

/-! What is read from the text of a value, in either form. The tree of the value is what its tokens
make, and the tokens are those of its characters; so values with one text are one value. -/

namespace CryptoConditions.Json

namespace Written

mutual

def toks : Written → List Token
  | null => [.null]
  | bool value => [.bool value]
  | number literal => [.number literal]
  | string pieces => [.string pieces]
  | array [] => [.openArray, .closeArray]
  | array (item :: items) => .openArray :: (toks item ++ itemToks items)
  | object [] => [.openObject, .closeObject]
  | object ((name, value) :: fields) =>
    .openObject :: .string name :: .colon :: (toks value ++ fieldToks fields)

def itemToks : List Written → List Token
  | [] => [.closeArray]
  | item :: items => .comma :: (toks item ++ itemToks items)

def fieldToks : List (List Piece × Written) → List Token
  | [] => [.closeObject]
  | (name, value) :: fields =>
    .comma :: .string name :: .colon :: (toks value ++ fieldToks fields)

end

theorem fold_firstItem (w : Written) (outer : List Open) (rest : List Token) :
    (w.toks ++ rest).foldlM step (.firstItem outer) =
      (w.toks ++ rest).foldlM step (.value (.array [] :: outer)) := by
  cases w with
  | null | bool | number | string => rfl
  | array items => cases items <;> rfl
  | object fields => cases fields <;> rfl

mutual

theorem fold_toks : (w : Written) → (outer : List Open) → (rest : List Token) →
    (w.toks ++ rest).foldlM step (.value outer) = rest.foldlM step (.complete w outer)
  | null, _, _ | bool _, _, _ | number _, _, _ | string _, _, _ | array [], _, _
  | object [], _, _ => rfl
  | array (item :: items), outer, rest => by
    have first := fold_firstItem item outer (itemToks items ++ rest)
    rw [fold_toks item, fold_itemToks items [] item] at first
    rw [toks, List.cons_append, List.append_assoc]
    exact first
  | object ((name, value) :: fields), outer, rest => by
    have first := fold_toks value (.object [] name :: outer) (fieldToks fields ++ rest)
    rw [fold_fieldToks fields [] name value] at first
    rw [toks, List.cons_append, List.cons_append, List.cons_append, List.append_assoc]
    exact first

theorem fold_itemToks : (items done : List Written) → (item : Written) → (outer : List Open) →
    (rest : List Token) →
    (itemToks items ++ rest).foldlM step (.complete item (.array done :: outer)) =
      rest.foldlM step (.complete (.array (done.reverse ++ item :: items)) outer)
  | [], done, item, outer, rest => by
    have closed : (item :: done).reverse = done.reverse ++ [item] := List.reverse_cons
    rw [← closed]
    rfl
  | next :: items, done, item, outer, rest => by
    have second := fold_toks next (.array (item :: done) :: outer) (itemToks items ++ rest)
    rw [fold_itemToks items (item :: done) next, List.reverse_cons, List.append_assoc] at second
    rw [itemToks, List.cons_append, List.append_assoc]
    exact second

theorem fold_fieldToks : (fields done : List (List Piece × Written)) → (name : List Piece) →
    (value : Written) → (outer : List Open) → (rest : List Token) →
    (fieldToks fields ++ rest).foldlM step (.complete value (.object done name :: outer)) =
      rest.foldlM step (.complete (.object (done.reverse ++ (name, value) :: fields)) outer)
  | [], done, name, value, outer, rest => by
    have closed : ((name, value) :: done).reverse = done.reverse ++ [(name, value)] :=
      List.reverse_cons
    rw [← closed]
    rfl
  | (other, next) :: fields, done, name, value, outer, rest => by
    have second := fold_toks next (.object ((name, value) :: done) other :: outer)
      (fieldToks fields ++ rest)
    rw [fold_fieldToks fields ((name, value) :: done) other next, List.reverse_cons,
      List.append_assoc] at second
    rw [fieldToks, List.cons_append, List.cons_append, List.cons_append, List.append_assoc]
    exact second

end

theorem ofTokens?_toks (w : Written) : ofTokens? w.toks = some w := by
  have whole := fold_toks w [] []
  rw [List.append_nil] at whole
  rw [ofTokens?, whole]
  rfl

end Written

mutual

def written : Json → Written
  | null => .null
  | bool value => .bool value
  | number n => .number n.literal
  | string text => .string (text.toList.map piece)
  | array items => .array (writtenItems items)
  | object fields => .object (writtenFields fields)

def writtenItems : List Json → List Written
  | [] => []
  | item :: items => written item :: writtenItems items

def writtenFields : List (String × Json) → List (List Piece × Written)
  | [] => []
  | (name, value) :: fields => (name.toList.map piece, written value) :: writtenFields fields

end

mutual

def Numbers (p : Number → Prop) : Json → Prop
  | null | bool _ | string _ => True
  | number n => p n
  | array items => ItemNumbers p items
  | object fields => FieldNumbers p fields

def ItemNumbers (p : Number → Prop) : List Json → Prop
  | [] => True
  | item :: items => Numbers p item ∧ ItemNumbers p items

def FieldNumbers (p : Number → Prop) : List (String × Json) → Prop
  | [] => True
  | (_, value) :: fields => Numbers p value ∧ FieldNumbers p fields

end

theorem numbers_ofUInt64 (n : UInt64) : (ofUInt64 n).Numbers Number.Normal := trivial

theorem itemNumbers_map {α : Type} {p : Number → Prop} {f : α → Json} {list : List α} :
    ItemNumbers p (list.map f) ↔ ∀ a ∈ list, (f a).Numbers p := by
  induction list with
  | nil => simp [ItemNumbers]
  | cons a list ih => rw [List.map_cons, ItemNumbers, ih, List.forall_mem_cons]

theorem fieldNumbers_append {p : Number → Prop} {fields more : List (String × Json)} :
    FieldNumbers p (fields ++ more) ↔ FieldNumbers p fields ∧ FieldNumbers p more := by
  induction fields with
  | nil => simp [FieldNumbers]
  | cons field fields ih => rw [List.cons_append, FieldNumbers, FieldNumbers, ih, and_assoc]

mutual

theorem Numbers.mono {p q : Number → Prop} (weaker : ∀ n, p n → q n) :
    (value : Json) → value.Numbers p → value.Numbers q
  | null, _ | bool _, _ | string _, _ => trivial
  | number n, holds => weaker n holds
  | array items, all => ItemNumbers.mono weaker items all
  | object fields, all => FieldNumbers.mono weaker fields all

theorem ItemNumbers.mono {p q : Number → Prop} (weaker : ∀ n, p n → q n) :
    (items : List Json) → ItemNumbers p items → ItemNumbers q items
  | [], _ => trivial
  | item :: items, all => ⟨Numbers.mono weaker item all.1, ItemNumbers.mono weaker items all.2⟩

theorem FieldNumbers.mono {p q : Number → Prop} (weaker : ∀ n, p n → q n) :
    (fields : List (String × Json)) → FieldNumbers p fields → FieldNumbers q fields
  | [], _ => trivial
  | (_, value) :: fields, all =>
    ⟨Numbers.mono weaker value all.1, FieldNumbers.mono weaker fields all.2⟩

end

section Layouts

variable {layout : Layout} {depth : Nat} {rest : List Char} {toks : List Token}

theorem newline_blank : ∀ c ∈ layout.newline depth, isBlank c = true := by
  cases layout with
  | compact => nofun
  | indented =>
    intro c mem
    rcases List.mem_cons.1 mem with rfl | mem
    · rfl
    · rw [List.eq_of_mem_replicate mem]
      rfl

theorem stops_cons {c : Char} (digit : Literal.isDigit c = false)
    (other : c ≠ '.' ∧ c ≠ 'e' ∧ c ≠ 'E') : Literal.Stops (c :: rest) := by
  intro _ first
  cases first
  exact ⟨digit, other⟩

theorem stops_newline (stops : Literal.Stops rest) :
    Literal.Stops (layout.newline depth ++ rest) := by
  cases layout with
  | compact => exact stops
  | indented => exact stops_cons rfl (by decide)

theorem stops_restItems (items : List Json) :
    Literal.Stops (restItems layout depth items ++ rest) := by
  cases items with
  | nil =>
    rw [restItems, List.append_assoc]
    exact stops_newline (stops_cons rfl (by decide))
  | cons item items => exact stops_cons rfl (by decide)

theorem stops_restFields (fields : List (String × Json)) :
    Literal.Stops (restFields layout depth fields ++ rest) := by
  cases fields with
  | nil =>
    rw [restFields, List.append_assoc]
    exact stops_newline (stops_cons rfl (by decide))
  | cons field fields => exact stops_cons rfl (by decide)

theorem spells_mark {c : Char} {tok : Token} (visible : isBlank c = false)
    (taken : ∀ rest, token (c :: rest) = some (tok, rest)) (spells : Spells rest toks) :
    Spells (c :: rest) (tok :: toks) :=
  spells_token visible (taken rest) (Nat.le_refl _) spells

theorem spells_quoted {text : String} (spells : Spells rest toks) :
    Spells (quoted text ++ rest) (.string (text.toList.map piece) :: toks) := by
  rw [quoted, List.append_assoc]
  exact spells_string spells

theorem spells_name {name : String} (spells : Spells rest toks) :
    Spells (quoted name ++ (layout.colon ++ rest))
      (.string (name.toList.map piece) :: .colon :: toks) := by
  apply spells_quoted
  cases layout with
  | compact => exact spells_mark rfl (fun _ => rfl) spells
  | indented =>
    have blank : ∀ c ∈ [' '], isBlank c = true := List.forall_mem_singleton.2 rfl
    exact spells_mark rfl (fun _ => rfl) (spells_blanks blank spells)

end Layouts

mutual

theorem spells_chars (layout : Layout) : (value : Json) → (depth : Nat) → (rest : List Char) →
    (toks : List Token) → value.Numbers Number.Normal → Literal.Stops rest → Spells rest toks →
    Spells (chars layout depth value ++ rest) ((written value).toks ++ toks)
  | null, _, _, _, _, _, spells => spells_token rfl rfl (by simp; omega) spells
  | bool true, _, _, _, _, _, spells => spells_token rfl rfl (by simp; omega) spells
  | bool false, _, _, _, _, _, spells => spells_token rfl rfl (by simp; omega) spells
  | number n, _, rest, toks, normal, stops, spells => by
    rw [chars, Number.chars_eq normal]
    exact spells_number (Number.literal_plain normal) stops spells
  | string text, _, rest, toks, _, _, spells => by
    rw [chars]
    exact spells_quoted spells
  | array [], _, _, _, _, _, spells =>
    spells_mark rfl (fun _ => rfl) (spells_mark rfl (fun _ => rfl) spells)
  | array (item :: items), depth, rest, toks, normal, _, spells => by
    have others := spells_restItems layout items depth rest toks normal.2 spells
    have first := spells_chars layout item (depth + 1) _ _ normal.1 (stops_restItems items) others
    rw [chars, written, writtenItems, Written.toks]
    simp only [List.cons_append, List.append_assoc]
    exact spells_mark rfl (fun _ => rfl) (spells_blanks newline_blank first)
  | object [], _, _, _, _, _, spells =>
    spells_mark rfl (fun _ => rfl) (spells_mark rfl (fun _ => rfl) spells)
  | object ((name, value) :: fields), depth, rest, toks, normal, _, spells => by
    have others := spells_restFields layout fields depth rest toks normal.2 spells
    have first :=
      spells_chars layout value (depth + 1) _ _ normal.1 (stops_restFields fields) others
    rw [chars, written, writtenFields, Written.toks]
    simp only [List.cons_append, List.append_assoc]
    exact spells_mark rfl (fun _ => rfl) (spells_blanks newline_blank (spells_name first))

theorem spells_restItems (layout : Layout) : (items : List Json) → (depth : Nat) →
    (rest : List Char) → (toks : List Token) → ItemNumbers Number.Normal items →
    Spells rest toks →
    Spells (restItems layout depth items ++ rest) (Written.itemToks (writtenItems items) ++ toks)
  | [], depth, rest, toks, _, spells => by
    rw [restItems, List.append_assoc]
    exact spells_blanks newline_blank (spells_mark rfl (fun _ => rfl) spells)
  | item :: items, depth, rest, toks, normal, spells => by
    have others := spells_restItems layout items depth rest toks normal.2 spells
    have next := spells_chars layout item (depth + 1) _ _ normal.1 (stops_restItems items) others
    rw [restItems, writtenItems, Written.itemToks]
    simp only [List.cons_append, List.append_assoc]
    exact spells_mark rfl (fun _ => rfl) (spells_blanks newline_blank next)

theorem spells_restFields (layout : Layout) : (fields : List (String × Json)) → (depth : Nat) →
    (rest : List Char) → (toks : List Token) → FieldNumbers Number.Normal fields →
    Spells rest toks →
    Spells (restFields layout depth fields ++ rest)
      (Written.fieldToks (writtenFields fields) ++ toks)
  | [], depth, rest, toks, _, spells => by
    rw [restFields, List.append_assoc]
    exact spells_blanks newline_blank (spells_mark rfl (fun _ => rfl) spells)
  | (name, value) :: fields, depth, rest, toks, normal, spells => by
    have others := spells_restFields layout fields depth rest toks normal.2 spells
    have next := spells_chars layout value (depth + 1) _ _ normal.1 (stops_restFields fields) others
    rw [restFields, writtenFields, Written.fieldToks]
    simp only [List.cons_append, List.append_assoc]
    exact spells_mark rfl (fun _ => rfl) (spells_blanks newline_blank (spells_name next))

end

theorem ofText?_chars {value : Json} (normal : value.Numbers Number.Normal) (layout : Layout) :
    Written.ofText? (String.ofList (chars layout 0 value)) = some value.written := by
  have stops : Literal.Stops [] := nofun
  have spells := spells_chars layout value 0 [] [] normal stops spells_nil
  rw [List.append_nil, List.append_nil] at spells
  rw [Written.ofText?, String.toList_ofList, spells.tokens]
  exact Written.ofTokens?_toks _

theorem map_piece_injective {a b : String}
    (same : a.toList.map piece = b.toList.map piece) : a = b :=
  eq_of_read (text?_map_piece a) (text?_map_piece b) same

mutual

theorem written_injective : (a b : Json) → a.Numbers Number.Normal → b.Numbers Number.Normal →
    a.written = b.written → a = b
  | null, b, _, _, same => by
    cases b with
    | null => rfl
    | _ => cases same
  | bool x, b, _, _, same => by
    cases b with
    | bool y =>
      cases same
      rfl
    | _ => cases same
  | number n, b, normal, normal', same => by
    cases b with
    | number m =>
      rw [written, written, Written.number.injEq] at same
      rw [Number.literal_injective normal normal' same]
    | _ => cases same
  | string x, b, _, _, same => by
    cases b with
    | string y =>
      rw [written, written, Written.string.injEq] at same
      rw [map_piece_injective same]
    | _ => cases same
  | array as, b, normal, normal', same => by
    cases b with
    | array bs =>
      rw [written, written, Written.array.injEq] at same
      rw [writtenItems_injective as bs normal normal' same]
    | _ => cases same
  | object as, b, normal, normal', same => by
    cases b with
    | object bs =>
      rw [written, written, Written.object.injEq] at same
      rw [writtenFields_injective as bs normal normal' same]
    | _ => cases same

theorem writtenItems_injective : (as bs : List Json) → ItemNumbers Number.Normal as →
    ItemNumbers Number.Normal bs → writtenItems as = writtenItems bs → as = bs
  | [], [], _, _, _ => rfl
  | [], _ :: _, _, _, same => by cases same
  | _ :: _, [], _, _, same => by cases same
  | a :: as, b :: bs, normal, normal', same => by
    rw [writtenItems, writtenItems, List.cons.injEq] at same
    rw [written_injective a b normal.1 normal'.1 same.1,
      writtenItems_injective as bs normal.2 normal'.2 same.2]

theorem writtenFields_injective : (as bs : List (String × Json)) →
    FieldNumbers Number.Normal as → FieldNumbers Number.Normal bs →
    writtenFields as = writtenFields bs → as = bs
  | [], [], _, _, _ => rfl
  | [], _ :: _, _, _, same => by cases same
  | _ :: _, [], _, _, same => by cases same
  | (x, a) :: as, (y, b) :: bs, normal, normal', same => by
    rw [writtenFields, writtenFields, List.cons.injEq, Prod.mk.injEq] at same
    rw [map_piece_injective same.1.1, written_injective a b normal.1 normal'.1 same.1.2,
      writtenFields_injective as bs normal.2 normal'.2 same.2]

end

theorem compact_injective {a b : Json} (normal : a.Numbers Number.Normal)
    (normal' : b.Numbers Number.Normal) (same : a.compact = b.compact) : a = b := by
  have read : Written.ofText? a.compact = some a.written := ofText?_chars normal .compact
  have read' : Written.ofText? b.compact = some b.written := ofText?_chars normal' .compact
  exact written_injective a b normal normal' (eq_of_read read read' same)

end CryptoConditions.Json
