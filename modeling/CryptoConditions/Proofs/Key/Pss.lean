import CryptoConditions.Key.Pss
import CryptoConditions.Proofs.Bytes

/-! What is encoded with a salt passes the check: the mask comes off again behind the first byte,
and the salt stands behind it. -/

namespace CryptoConditions.Pss

theorem stretch_length (seed : Bytes) (length : Nat) : (stretch seed length).length = length := by
  have total (count : Nat) : ((List.range count).flatMap fun i =>
      (sha256 (seed ++ bigEndian 4 i)).bytes).length = 32 * count := by
    induction count with
    | zero => rfl
    | succ count ih =>
      rw [List.range_succ, List.flatMap_append, List.length_append, ih, List.flatMap_singleton,
        (sha256 _).length_eq, Nat.mul_succ]
  rw [stretch, List.length_take, total]
  omega

theorem clearFirst_length (count : Nat) (bytes : Bytes) :
    (clearFirst count bytes).length = bytes.length := by
  cases bytes <;> rfl

theorem drop_clearFirst (count n : Nat) (bytes : Bytes) :
    (clearFirst count bytes).drop (n + 1) = bytes.drop (n + 1) := by
  cases bytes <;> rfl

theorem ofBigEndian_clearFirst_lt {count : Nat} (few : count ≤ 7) {bytes : Bytes}
    (nonempty : bytes ≠ []) (rest : Bytes) :
    ofBigEndian (clearFirst count bytes ++ rest) <
      2 ^ (8 * (bytes.length + rest.length) - count) := by
  obtain ⟨byte, tail, rfl⟩ := List.exists_cons_of_ne_nil nonempty
  have small : byte.toNat % 2 ^ (8 - count) < 2 ^ (8 - count) :=
    Nat.mod_lt _ (Nat.pow_pos (by decide))
  have fits : byte.toNat % 2 ^ (8 - count) < 256 :=
    Nat.lt_of_le_of_lt (Nat.mod_le _ _) byte.toNat_lt
  have below := ofBigEndian_lt (tail ++ rest)
  have power : 2 ^ (8 * ((byte :: tail).length + rest.length) - count) =
      2 ^ (8 - count) * 256 ^ (tail ++ rest).length := by
    rw [show 256 = 2 ^ 8 from rfl, ← Nat.pow_mul, ← Nat.pow_add, List.length_append,
      List.length_cons]
    congr 1
    omega
  rw [clearFirst, List.cons_append, ofBigEndian_cons, UInt8.toNat_ofNat', Nat.mod_eq_of_lt fits,
    power]
  calc _ < byte.toNat % 2 ^ (8 - count) * 256 ^ (tail ++ rest).length +
        256 ^ (tail ++ rest).length := Nat.add_lt_add_left below _
    _ = (byte.toNat % 2 ^ (8 - count) + 1) * 256 ^ (tail ++ rest).length := by ring
    _ ≤ _ := Nat.mul_le_mul_right _ small

theorem mask_length (bits : Nat) (fingerprint block : Bytes) :
    (mask bits fingerprint block).length = block.length := by
  rw [mask, clearFirst_length, List.length_zipWith, stretch_length, Nat.min_self]

theorem zipWith_xor_xor {bytes other : Bytes} (long : bytes.length = other.length) :
    List.zipWith (· ^^^ ·) (List.zipWith (· ^^^ ·) bytes other) other = bytes := by
  induction bytes generalizing other with
  | nil => rfl
  | cons byte bytes ih =>
    obtain ⟨first, rest, rfl⟩ := List.exists_cons_of_length_eq_add_one long.symm
    have head : byte ^^^ first ^^^ first = byte := by
      rw [UInt8.xor_assoc, UInt8.xor_self, UInt8.xor_zero]
    rw [List.zipWith_cons_cons, List.zipWith_cons_cons, head, ih (Nat.succ.inj long)]

theorem drop_mask_mask (bits n : Nat) (fingerprint block : Bytes) :
    (mask bits fingerprint (mask bits fingerprint block)).drop (n + 1) = block.drop (n + 1) := by
  have long : (block.drop (n + 1)).length =
      ((stretch fingerprint block.length).drop (n + 1)).length := by
    rw [List.length_drop, List.length_drop, stretch_length]
  rw [mask, mask_length, drop_clearFirst, List.drop_zipWith, mask, drop_clearFirst,
    List.drop_zipWith, zipWith_xor_xor long]

section Encoding

variable {bits : Nat} {digest : Octets 32} {salt encoded : Bytes}

theorem encode?_eq_some (ok : encode? bits digest salt = some encoded) :
    66 ≤ encodedLength bits ∧ ∃ fingerprint : Bytes, fingerprint.length = 32 ∧
      encoded = mask bits fingerprint (List.replicate (encodedLength bits - 66) 0 ++ 1 :: salt) ++
        fingerprint ++ [0xbc] := by
  unfold encode? at ok
  split at ok
  · cases ok
  · next room =>
    cases ok
    exact ⟨Nat.le_of_not_lt room, _, (sha256 _).length_eq, rfl⟩

theorem block_length (room : 66 ≤ encodedLength bits) (long : salt.length = 32) :
    (List.replicate (encodedLength bits - 66) (0 : UInt8) ++ 1 :: salt).length =
      encodedLength bits - 33 := by
  rw [List.length_append, List.length_replicate, List.length_cons, long]
  omega

theorem encode?_length (long : salt.length = 32) (ok : encode? bits digest salt = some encoded) :
    encoded.length = encodedLength bits := by
  obtain ⟨room, fingerprint, width, rfl⟩ := encode?_eq_some ok
  rw [List.length_append, List.length_append, mask_length, block_length room long, width,
    List.length_singleton]
  omega

theorem salt_encode? (long : salt.length = 32) (ok : encode? bits digest salt = some encoded) :
    Pss.salt bits encoded = salt := by
  obtain ⟨room, fingerprint, width, rfl⟩ := encode?_eq_some ok
  have front := mask_length bits fingerprint
    (List.replicate (encodedLength bits - 66) 0 ++ 1 :: salt)
  rw [block_length room long] at front
  have shift : encodedLength bits - 65 = encodedLength bits - 66 + 1 := by omega
  have zeros : (List.replicate (encodedLength bits - 66) (0 : UInt8)).length =
      encodedLength bits - 66 := List.length_replicate
  rw [Pss.salt, List.append_assoc, List.drop_left' front, List.take_left' front,
    List.take_left' width, shift, drop_mask_mask, ← List.drop_drop, List.drop_left' zeros]
  rfl

theorem check_encode? (long : salt.length = 32) (ok : encode? bits digest salt = some encoded) :
    check bits digest encoded = true := by
  rw [check, salt_encode? long ok, ok]
  exact beq_self_eq_true _

theorem encode?_lt (long : salt.length = 32) (ok : encode? bits digest salt = some encoded) :
    ofBigEndian encoded < 2 ^ bits := by
  have total := encode?_length long ok
  obtain ⟨room, fingerprint, width, rfl⟩ := encode?_eq_some ok
  rw [List.append_assoc] at total ⊢
  rw [List.length_append, mask_length] at total
  rw [mask]
  have wide : (List.zipWith (· ^^^ ·)
      (List.replicate (encodedLength bits - 66) (0 : UInt8) ++ 1 :: salt) (stretch fingerprint
        (List.replicate (encodedLength bits - 66) (0 : UInt8) ++ 1 :: salt).length)).length =
      (List.replicate (encodedLength bits - 66) (0 : UInt8) ++ 1 :: salt).length := by
    rw [List.length_zipWith, stretch_length, Nat.min_self]
  have nonempty : 0 <
      (List.replicate (encodedLength bits - 66) (0 : UInt8) ++ 1 :: salt).length := by
    simp
  have spare : 8 * encodedLength bits - bits ≤ 7 := by
    unfold encodedLength
    omega
  have exact : 8 * encodedLength bits - (8 * encodedLength bits - bits) = bits := by
    unfold encodedLength
    omega
  have bound := ofBigEndian_clearFirst_lt spare
    (List.ne_nil_of_length_pos (by rw [wide]; exact nonempty)) (fingerprint ++ [0xbc])
  rw [wide, total, exact] at bound
  exact bound

end Encoding

end CryptoConditions.Pss
