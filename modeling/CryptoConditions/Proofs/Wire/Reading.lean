import CryptoConditions.Proofs.Bytes
import CryptoConditions.Wire.Reader

/-! Reading undoes writing: a value in front of any bytes is read back and the
bytes behind it are left. So what is written is self-delimiting, and two values
written before any bytes are told apart. -/

namespace CryptoConditions.Wire

namespace Reader

variable {α β : Type}

theorem bind_of_ok {read : Reader α} {bytes rest : Bytes} {a : α}
    (ok : read bytes = (.ok a, rest)) (next : α → Reader β) :
    (read >>= next) bytes = next a rest := by
  simp only [bind, ok]

theorem exact_append {count : Nat} {bytes : Bytes} (long : bytes.length = count) (rest : Bytes) :
    exact count (bytes ++ rest) = (.ok bytes, rest) := by
  subst long
  simp [exact]

theorem fixed_append {width : Nat} {bytes : Bytes} (long : bytes.length = width) (rest : Bytes) :
    fixed width (bytes ++ rest) = (.ok (ofBigEndian bytes), rest) := by
  rw [fixed, bind_of_ok (exact_append long rest)]
  rfl

theorem fixed_bigEndian (width n : Nat) (rest : Bytes) :
    fixed width (bigEndian width n ++ rest) = (.ok (n % 256 ^ width), rest) := by
  rw [fixed_append (bigEndian_length width n), ofBigEndian_bigEndian]

theorem fixed_one (byte : UInt8) (rest : Bytes) :
    fixed 1 (byte :: rest) = (.ok byte.toNat, rest) := by
  have read := fixed_append (show [byte].length = 1 from rfl) rest
  simpa [ofBigEndian] using read

theorem length_length {n : Nat} (small : n < 2 ^ 64) (rest : Bytes) :
    length (Wire.length n ++ rest) = (.ok n, rest) := by
  unfold length Wire.length
  by_cases short : n < 128
  · have value : (UInt8.ofNat n).toNat = n := Nat.mod_eq_of_lt (by omega)
    rw [if_pos short, List.singleton_append, bind_of_ok (fixed_one _ rest), value, if_pos short]
    rfl
  · have width : byteWidth n ≤ 8 := byteWidth_le (by omega) (by decide)
    have pos := byteWidth_pos n
    have value : (UInt8.ofNat (128 + byteWidth n)).toNat = 128 + byteWidth n :=
      Nat.mod_eq_of_lt (by omega)
    have minimal :
        ¬ ((minimalBigEndian n).head? = some 0 ∨ ofBigEndian (minimalBigEndian n) < 128) := by
      rw [ofBigEndian_minimalBigEndian]
      rintro (zero | low)
      · exact short (by rw [head?_minimalBigEndian zero]; decide)
      · exact short low
    rw [if_neg short, List.cons_append, bind_of_ok (fixed_one _ _), value, if_neg (by omega)]
    simp only [Nat.add_sub_cancel_left]
    rw [if_neg (by unfold maxLengthBytes; omega),
      bind_of_ok (exact_append (minimalBigEndian_length n) rest), if_neg minimal,
      ofBigEndian_minimalBigEndian]
    rfl

theorem octets_octets {bytes : Bytes} (small : bytes.length < 2 ^ 64) (rest : Bytes) :
    octets (Wire.octets bytes ++ rest) = (.ok bytes, rest) := by
  rw [octets, Wire.octets, List.append_assoc, bind_of_ok (length_length small _),
    exact_append rfl rest]

theorem uint_uint {n : Nat} (small : n < 2 ^ 64) (rest : Bytes) :
    uint (Wire.uint n ++ rest) = (.ok n, rest) := by
  have width : byteWidth n ≤ 8 := byteWidth_le (by omega) (by decide)
  have pos := byteWidth_pos n
  have leading : ¬ (1 < byteWidth n ∧ (minimalBigEndian n).head? = some 0) := by
    rintro ⟨wide, zero⟩
    rw [head?_minimalBigEndian zero] at wide
    simp [byteWidth] at wide
  rw [uint, Wire.uint, bind_of_ok (octets_octets (by simp; omega) rest)]
  rw [if_neg (by simp [minimalBigEndian_ne_nil]), if_neg (by simp; omega),
    minimalBigEndian_length, if_neg leading, ofBigEndian_minimalBigEndian]
  rfl

theorem finish_nil : finish [] = (.ok (), []) := rfl

theorem orThrow_of_ok {ε : Type} {wrap : CodecError → ε} {read : Reader α} {bytes rest : Bytes}
    {a : α} (ok : read bytes = (.ok a, rest)) : read.orThrow wrap bytes = .ok (a, rest) := by
  simp only [orThrow, ok]

end Reader

theorem octets_append_inj {a b r s : Bytes} (smallA : a.length < 2 ^ 64)
    (smallB : b.length < 2 ^ 64) (same : octets a ++ r = octets b ++ s) : a = b ∧ r = s := by
  have read := Reader.octets_octets smallA r
  rw [same, Reader.octets_octets smallB s] at read
  simpa [eq_comm] using read

theorem uint_append_inj {m n : Nat} {r s : Bytes} (smallM : m < 2 ^ 64) (smallN : n < 2 ^ 64)
    (same : uint m ++ r = uint n ++ s) : m = n ∧ r = s := by
  have read := Reader.uint_uint smallM r
  rw [same, Reader.uint_uint smallN s] at read
  simpa [eq_comm] using read

theorem lengthWidth_mono {m n : Nat} (le : m ≤ n) : lengthWidth m ≤ lengthWidth n := by
  have widths := byteWidth_mono le
  unfold lengthWidth
  split <;> split <;> omega

theorem octetsLength_mono {m n : Nat} (le : m ≤ n) : octetsLength m ≤ octetsLength n :=
  Nat.add_le_add (lengthWidth_mono le) le

theorem octetsLength_injective {m n : Nat} (same : octetsLength m = octetsLength n) : m = n := by
  unfold octetsLength at same
  rcases Nat.le_total m n with le | le
  · have widths := lengthWidth_mono le
    omega
  · have widths := lengthWidth_mono le
    omega

theorem octets_injective {a b : Bytes} (same : octets a = octets b) : a = b := by
  have lengths := congrArg List.length same
  rw [octets_length, octets_length] at lengths
  rw [octets, octets, octetsLength_injective lengths] at same
  exact List.append_cancel_left same

end CryptoConditions.Wire
