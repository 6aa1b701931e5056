import CryptoConditions.Proofs.Text.Sextets
import CryptoConditions.Wire.Uri

/-! The parts of a URI are those that it was written from, and no other text is read as them. So
a condition has one URI, and so has a payload of a type. -/

namespace CryptoConditions.Uri

/-- Numbers that have their place: a type of 16 bits, features and a size of 64. -/
structure ConditionParts.Fit (parts : ConditionParts) : Prop where
  type : parts.type < 2 ^ 16
  features : parts.features < 2 ^ 64
  size : parts.size < 2 ^ 64

theorem hexField_hexChars {n : Nat} (fits : n < 2 ^ 64) :
    hexField (Numeral.hexChars n) = .ok n := by
  simp only [hexField, Numeral.bounded?_hexChars fits, if_true]

theorem typeField_hexChars {n : Nat} (fits : n < 2 ^ 16) :
    typeField (Numeral.hexChars n) = .ok n := by
  simp only [typeField, hexField_hexChars (show n < 2 ^ 64 by omega), bind, Except.bind,
    if_pos fits, pure, Except.pure]

theorem base64Field_encodeChars (bytes : Bytes) :
    base64Field (Base64.encodeChars bytes) = .ok bytes := by
  simp only [base64Field, Base64.decode_encodeChars]

theorem parseFulfillment_format {parts : FulfillmentParts} (fits : parts.type < 2 ^ 16) :
    parseFulfillment parts.format = .ok parts := by
  have fields : Text.split ':' parts.chars =
      [fulfillmentScheme, Numeral.hexChars parts.type, Base64.encodeChars parts.payload] := by
    rw [FulfillmentParts.chars, List.append_assoc, List.cons_append,
      Text.split_append (show ':' ∉ fulfillmentScheme by decide),
      Text.split_append (Numeral.colon_notMem_hexChars _),
      Text.split_of_notMem (Base64.colon_notMem_encodeChars _)]
  rw [parseFulfillment, FulfillmentParts.format, String.toList_ofList, fields]
  simp only [typeField_hexChars fits, base64Field_encodeChars, bind, Except.bind, pure,
    Except.pure, ne_eq, not_true_eq_false, if_false]

theorem hexField_ok {field : List Char} {n : Nat} (ok : hexField field = .ok n) :
    field = Numeral.hexChars n ∧ n < 2 ^ 64 := by
  unfold hexField at ok
  split at ok
  · cases ok
  · next read =>
    split at ok
    · next spelled =>
      cases ok
      exact ⟨spelled.symm, Numeral.lt_of_bounded? read⟩
    · cases ok

theorem typeField_ok {field : List Char} {n : Nat} (ok : typeField field = .ok n) :
    field = Numeral.hexChars n ∧ n < 2 ^ 16 := by
  simp only [typeField, bind_eq_ok] at ok
  obtain ⟨m, read, ok⟩ := ok
  split at ok
  · next small =>
    cases ok
    exact ⟨(hexField_ok read).1, small⟩
  · cases ok

theorem sizeField_ok {field : List Char} {n : Nat} (ok : sizeField field = .ok n) :
    field = Numeral.decimalChars n ∧ n < 2 ^ 64 := by
  unfold sizeField at ok
  split at ok
  · cases ok
  · next read =>
    split at ok
    · next spelled =>
      cases ok
      exact ⟨spelled.symm, Numeral.lt_of_bounded? read⟩
    · cases ok

theorem base64Field_ok {field : List Char} {bytes : Bytes} (ok : base64Field field = .ok bytes) :
    field = Base64.encodeChars bytes := by
  unfold base64Field at ok
  split at ok
  · next read =>
    cases ok
    simpa [Base64.encode] using congrArg String.toList (Base64.decode_ok read)
  · cases ok

theorem sizeField_decimalChars {n : Nat} (fits : n < 2 ^ 64) :
    sizeField (Numeral.decimalChars n) = .ok n := by
  simp only [sizeField, Numeral.bounded?_decimalChars fits, if_true]

theorem parseCondition_format {parts : ConditionParts} (fit : parts.Fit) :
    parseCondition parts.format = .ok parts := by
  have fields : Text.split ':' parts.chars = [conditionScheme, Numeral.hexChars parts.type,
      Numeral.hexChars parts.features, Base64.encodeChars parts.hash,
      Numeral.decimalChars parts.size] := by
    simp only [ConditionParts.chars, List.append_assoc, List.cons_append]
    rw [Text.split_append (show ':' ∉ conditionScheme by decide),
      Text.split_append (Numeral.colon_notMem_hexChars _),
      Text.split_append (Numeral.colon_notMem_hexChars _),
      Text.split_append (Base64.colon_notMem_encodeChars _),
      Text.split_of_notMem (Numeral.colon_notMem_decimalChars _)]
  rw [parseCondition, ConditionParts.format, String.toList_ofList, fields]
  simp only [typeField_hexChars fit.type, hexField_hexChars fit.features, base64Field_encodeChars,
    sizeField_decimalChars fit.size, bind, Except.bind, pure, Except.pure, ne_eq, not_true_eq_false,
    if_false]

theorem parseCondition_ok {uri : String} {parts : ConditionParts}
    (ok : parseCondition uri = .ok parts) : uri = parts.format ∧ parts.Fit := by
  unfold parseCondition at ok
  split at ok
  · next scheme type features hash size fields =>
    split at ok
    · cases ok
    · next same =>
      simp only [bind_eq_ok, pure_eq_ok] at ok
      obtain ⟨t, typed, f, featured, h, hashed, s, sized, rfl⟩ := ok
      obtain ⟨rfl, typeFits⟩ := typeField_ok typed
      obtain ⟨rfl, featuresFit⟩ := hexField_ok featured
      obtain ⟨rfl, sizeFits⟩ := sizeField_ok sized
      have chars := Text.eq_of_split fields
      rw [base64Field_ok hashed, not_not.1 same] at chars
      refine ⟨?_, typeFits, featuresFit, sizeFits⟩
      rw [ConditionParts.format, ← String.ofList_toList (s := uri), chars]
      simp [ConditionParts.chars]
  · cases ok

theorem parseFulfillment_ok {uri : String} {parts : FulfillmentParts}
    (ok : parseFulfillment uri = .ok parts) : uri = parts.format ∧ parts.type < 2 ^ 16 := by
  unfold parseFulfillment at ok
  split at ok
  · next scheme type payload fields =>
    split at ok
    · cases ok
    · next same =>
      simp only [bind_eq_ok, pure_eq_ok] at ok
      obtain ⟨t, typed, bytes, read, rfl⟩ := ok
      obtain ⟨rfl, typeFits⟩ := typeField_ok typed
      have chars := Text.eq_of_split fields
      rw [base64Field_ok read, not_not.1 same] at chars
      refine ⟨?_, typeFits⟩
      rw [FulfillmentParts.format, ← String.ofList_toList (s := uri), chars]
      simp [FulfillmentParts.chars]
  · cases ok

/-- URIs and their parts belong together one to one, and so do bytes and their base64 text, which
spells them without padding; with padding it is refused, and so are bits behind the bytes that are
not zero. -/
theorem uri_iff_parts :
    (∀ (uri : String) (parts : ConditionParts),
      parseCondition uri = .ok parts ↔ parts.Fit ∧ uri = parts.format) ∧
    (∀ (uri : String) (parts : FulfillmentParts),
      parseFulfillment uri = .ok parts ↔ parts.type < 2 ^ 16 ∧ uri = parts.format) ∧
    (∀ (text : String) (bytes : Bytes),
      Base64.decode text = .ok bytes ↔ text = Base64.encode bytes) ∧
    (∀ bytes : Bytes, ∃ digits, Base64.Holds digits bytes ∧
      Base64.encode bytes = Base64.spelling digits) ∧
    (∀ (text : String) (bytes : Bytes), Base64.decode text = .ok bytes → '=' ∉ text.toList) ∧
    (∀ bytes : Bytes, bytes.length % 3 ≠ 0 →
      Base64.decode (Base64.encode bytes ++
        String.ofList (List.replicate (3 - bytes.length % 3) '=')) = .error .padding) ∧
    ∀ (digits : List Nat) (last : Nat), (∀ digit ∈ digits, digit < 64) → last < 64 →
      digits.length % 4 = 1 ∧ last % 16 ≠ 0 ∨ digits.length % 4 = 2 ∧ last % 4 ≠ 0 →
      Base64.decode (Base64.spelling (digits ++ [last])) =
        .error (.lastSymbol (Base64.symbol last) digits.length) := by
  refine ⟨fun uri parts => ?_, fun uri parts => ?_, fun _ _ => Base64.decode_eq_ok_iff,
    Base64.encode_spells, fun _ _ => Base64.padding_notMem_of_decode, fun _ => Base64.decode_padded,
    fun _ _ => Base64.decode_trailing⟩
  · constructor
    · exact fun ok => (parseCondition_ok ok).symm
    · rintro ⟨fit, rfl⟩
      exact parseCondition_format fit
  · constructor
    · exact fun ok => (parseFulfillment_ok ok).symm
    · rintro ⟨fits, rfl⟩
      exact parseFulfillment_format fits

theorem uri_iff_parts_sample :
    parseCondition "cc:4:20:_____w:96" = .ok ⟨4, 0x20, [0xff, 0xff, 0xff, 0xff], 96⟩ ∧
    "cc:4:20:_____w:96" = ConditionParts.format ⟨4, 0x20, [0xff, 0xff, 0xff, 0xff], 96⟩ ∧
    parseFulfillment "cf:63:aGVsbG8" = .ok ⟨0x63, [104, 101, 108, 108, 111]⟩ ∧
    Base64.decode (Base64.encode [0xff, 0xff, 0xff, 0xff] ++ String.ofList (List.replicate 2 '=')) =
      .error .padding ∧
    Base64.decode (Base64.spelling ([63, 63, 63, 63, 63] ++ [49])) =
      .error (.lastSymbol (Base64.symbol 49) 5) := by
  obtain ⟨conditions, fulfillments, _, _, _, padded, trailing⟩ := uri_iff_parts
  have written : ConditionParts.format ⟨4, 0x20, [0xff, 0xff, 0xff, 0xff], 96⟩ =
      "cc:4:20:_____w:96" := by decide +kernel
  have payload : FulfillmentParts.format ⟨0x63, [104, 101, 108, 108, 111]⟩ = "cf:63:aGVsbG8" := by
    decide +kernel
  exact ⟨(conditions _ _).2 ⟨⟨by decide, by decide, by decide⟩, written.symm⟩, written.symm,
    (fulfillments _ _).2 ⟨by decide, payload.symm⟩, padded [0xff, 0xff, 0xff, 0xff] (by decide),
    trailing [63, 63, 63, 63, 63] 49 (by decide) (by decide) (by decide)⟩

end CryptoConditions.Uri
