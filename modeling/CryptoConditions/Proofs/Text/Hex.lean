import CryptoConditions.Proofs.Steps
import CryptoConditions.Proofs.Text.Numeral
import CryptoConditions.Text.Hex

/-! Hexadecimal text is read back as the bytes that it was written from; no two byte strings
have one text. -/

namespace CryptoConditions.Hex

theorem decodeChars?_encodeChars (bytes : Bytes) :
    decodeChars? (encodeChars bytes) = some bytes := by
  induction bytes with
  | nil => rfl
  | cons byte bytes ih =>
    have bound := byte.toNat_lt
    have high := Numeral.hexValue?_digitChar (byte.toNat / 16) (by omega)
    have low := Numeral.hexValue?_digitChar (byte.toNat % 16) (by omega)
    have joined : 16 * (byte.toNat / 16) + byte.toNat % 16 = byte.toNat := Nat.div_add_mod _ _
    rw [encodeChars] at ih ⊢
    simp only [List.flatMap_cons, List.cons_append, List.nil_append, decodeChars?, high, low, ih,
      joined, UInt8.ofNat_toNat, Option.bind_eq_bind, Option.bind_some]

theorem decode?_encode (bytes : Bytes) : decode? (encode bytes) = some bytes := by
  rw [decode?, encode, String.toList_ofList, decodeChars?_encodeChars]

theorem encode_injective {a b : Bytes} (same : encode a = encode b) : a = b :=
  eq_of_read (decode?_encode a) (decode?_encode b) same

end CryptoConditions.Hex
