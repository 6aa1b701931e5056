import CryptoConditions.Proofs.Bytes
import CryptoConditions.Proofs.Text.Numeral
import CryptoConditions.Text.Base58

/-! Base58 text spells the bytes that it was written from, and is the only text that spells them. A
zero byte in front is a symbol in front; what is left does not start with zero, so its number has
it all, and the digits of the number are those of the text. -/

namespace CryptoConditions

theorem ofBigEndian_zero_cons (rest : Bytes) : ofBigEndian (0 :: rest) = ofBigEndian rest := by
  rw [ofBigEndian_cons]
  simp

theorem ofBigEndian_ne_zero {byte : UInt8} (leading : byte ≠ 0) (rest : Bytes) :
    ofBigEndian (byte :: rest) ≠ 0 := by
  have value : byte.toNat ≠ 0 := fun zero => leading (UInt8.toNat_inj.1 zero)
  have product : 0 < byte.toNat * 256 ^ rest.length :=
    Nat.mul_pos (Nat.pos_of_ne_zero value) (Nat.pow_pos (by decide))
  rw [ofBigEndian_cons]
  omega

namespace Base58

theorem symbolValue?_symbol : ∀ d < 58, symbolValue? (symbol d) = some d := by
  decide

theorem mapM_symbol {ds : List Nat} (small : ∀ d ∈ ds, d < 58) :
    (ds.map symbol).mapM symbolValue? = some ds := by
  induction ds with
  | nil => rfl
  | cons d ds ih =>
    rw [List.forall_mem_cons] at small
    rw [List.map_cons, List.mapM_cons, symbolValue?_symbol d small.1, ih small.2]
    rfl

theorem decodeChars?_cons_one (chars : List Char) :
    decodeChars? ('1' :: chars) = (decodeChars? chars).map (0 :: ·) := by
  have one : symbolValue? '1' = some 0 := symbolValue?_symbol 0 (by decide)
  rw [decodeChars?, decodeChars?, List.mapM_cons, one]
  cases chars.mapM symbolValue? with
  | none => rfl
  | some ds =>
    have value : Numeral.value 58 (0 :: ds) = Numeral.value 58 ds := rfl
    have leading : (0 :: ds).takeWhile (· == 0) = 0 :: ds.takeWhile (· == 0) := rfl
    simp only [Option.bind_eq_bind, Option.bind_some, Option.pure_def, Option.map_some, value,
      leading, List.map_cons, List.cons_append]

theorem encodeChars_zero_cons (rest : Bytes) :
    encodeChars (0 :: rest) = '1' :: encodeChars rest := by
  rw [encodeChars, encodeChars, ofBigEndian_zero_cons]
  rfl

theorem decodeChars?_encodeChars (bytes : Bytes) :
    decodeChars? (encodeChars bytes) = some bytes := by
  induction bytes with
  | nil => rfl
  | cons byte rest ih =>
    by_cases zero : byte = 0
    · rw [zero, encodeChars_zero_cons, decodeChars?_cons_one, ih]
      rfl
    · have nonzero := ofBigEndian_ne_zero zero rest
      have form : minimalBigEndian (ofBigEndian (byte :: rest)) = byte :: rest :=
        minimalBigEndian_ofBigEndian (List.cons_ne_nil _ _) fun minimal =>
          zero (Option.some.inj minimal.2)
      have zeros : (byte :: rest).takeWhile (· == 0) = [] := by simp [zero]
      obtain ⟨d, ds, shape⟩ := List.exists_cons_of_ne_nil
        (Numeral.digits_ne_nil 58 (ofBigEndian (byte :: rest)))
      have leading : d ≠ 0 := by
        have head := @Numeral.head?_digits 58 _ (by decide) nonzero
        rw [shape] at head
        simpa using head
      have value := Numeral.value_digits 58 (ofBigEndian (byte :: rest))
      have small := @Numeral.digits_lt 58 (by decide) (ofBigEndian (byte :: rest))
      rw [shape] at value small
      rw [encodeChars, zeros, List.map_nil, List.nil_append, if_neg nonzero, decodeChars?, shape,
        mapM_symbol small]
      simp [value, nonzero, form, leading]

theorem decode?_encode (bytes : Bytes) : decode? (encode bytes) = some bytes := by
  rw [decode?, encode, String.toList_ofList, decodeChars?_encodeChars]

theorem symbol_of_symbolValue? {c : Char} {d : Nat} (read : symbolValue? c = some d) :
    symbol d = c ∧ d < 58 := by
  obtain ⟨inside, found, _⟩ := List.findIdx?_eq_some_iff_getElem.1 read
  refine ⟨?_, inside⟩
  rw [symbol, List.getD_eq_getElem?_getD, List.getElem?_eq_getElem inside, Option.getD_some]
  exact eq_of_beq found

theorem eq_map_symbol_of_mapM {chars : List Char} {ds : List Nat}
    (read : chars.mapM symbolValue? = some ds) : chars = ds.map symbol ∧ ∀ d ∈ ds, d < 58 := by
  induction chars generalizing ds with
  | nil =>
    cases read
    exact ⟨rfl, List.forall_mem_nil _⟩
  | cons c chars ih =>
    simp only [List.mapM_cons, Option.bind_eq_bind, Option.bind_eq_some_iff, Option.pure_def,
      Option.some.injEq] at read
    obtain ⟨d, first, rest, others, rfl⟩ := read
    obtain ⟨rfl, small⟩ := symbol_of_symbolValue? first
    obtain ⟨rfl, below⟩ := ih others
    exact ⟨rfl, List.forall_mem_cons.2 ⟨small, below⟩⟩

theorem encodeChars_minimalBigEndian {d : Nat} {ds : List Nat} (leading : d ≠ 0)
    (small : ∀ e ∈ d :: ds, e < 58) :
    encodeChars (minimalBigEndian (Numeral.value 58 (d :: ds))) = (d :: ds).map symbol := by
  have nonzero : Numeral.value 58 (d :: ds) ≠ 0 :=
    Nat.ne_of_gt (Numeral.value_pos (by decide) leading ds)
  have zeros : (minimalBigEndian (Numeral.value 58 (d :: ds))).takeWhile (· == 0) = [] := by
    obtain ⟨byte, rest, form⟩ := List.exists_cons_of_ne_nil
      (minimalBigEndian_ne_nil (Numeral.value 58 (d :: ds)))
    have first : byte ≠ 0 := by
      rintro rfl
      exact nonzero (head?_minimalBigEndian (by rw [form]; rfl))
    simp [form, first]
  rw [encodeChars, zeros, ofBigEndian_minimalBigEndian, if_neg nonzero,
    Numeral.digits_value (by decide) leading small]
  rfl

theorem encodeChars_of_decodeChars? {chars : List Char} {bytes : Bytes}
    (read : decodeChars? chars = some bytes) : encodeChars bytes = chars := by
  induction chars generalizing bytes with
  | nil =>
    cases read
    rfl
  | cons c chars ih =>
    by_cases one : c = '1'
    · rw [one, decodeChars?_cons_one, Option.map_eq_some_iff] at read
      obtain ⟨rest, inner, rfl⟩ := read
      rw [encodeChars_zero_cons, ih inner, one]
    · obtain ⟨digits, spelled, written⟩ := Option.bind_eq_some_iff.1 read
      obtain ⟨form, small⟩ := eq_map_symbol_of_mapM spelled
      cases digits with
      | nil => cases form
      | cons d ds =>
        have leading : d ≠ 0 := by
          rintro rfl
          exact one (List.cons.inj form).1
        have nonzero : Numeral.value 58 (d :: ds) ≠ 0 :=
          Nat.ne_of_gt (Numeral.value_pos (by decide) leading ds)
        -- No byte zero stands in front, so all digits are those of the number.
        have zeros : (d :: ds).takeWhile (· == 0) = [] := by simp [leading]
        rw [zeros] at written
        dsimp only at written
        rw [if_neg nonzero] at written
        obtain rfl := Option.some.inj written
        rw [form]
        exact encodeChars_minimalBigEndian leading small

theorem encode_of_decode? {text : String} {bytes : Bytes} (read : decode? text = some bytes) :
    encode bytes = text := by
  rw [encode, encodeChars_of_decodeChars? read, String.ofList_toList]

end Base58

end CryptoConditions
