import CryptoConditions.Bytes
import Mathlib.Tactic.Ring

/-! Big-endian numbers: writing one and spelling it out again gives it back,
and the shortest form does not start with a zero byte. Bytes of UTF-8 are those of
one text. -/

namespace CryptoConditions

private theorem foldl_bigEndian (bytes : Bytes) (start : Nat) :
    bytes.foldl (fun value byte => value * 256 + byte.toNat) start =
      start * 256 ^ bytes.length + ofBigEndian bytes := by
  induction bytes generalizing start with
  | nil => simp [ofBigEndian]
  | cons byte rest ih =>
    have tail := ih byte.toNat
    simp only [List.foldl_cons, List.length_cons, ofBigEndian, Nat.zero_mul, Nat.zero_add] at *
    rw [ih, tail, Nat.pow_succ]
    ring

theorem ofBigEndian_cons (byte : UInt8) (rest : Bytes) :
    ofBigEndian (byte :: rest) = byte.toNat * 256 ^ rest.length + ofBigEndian rest := by
  have step := foldl_bigEndian rest byte.toNat
  simpa [ofBigEndian] using step

theorem ofBigEndian_lt (bytes : Bytes) : ofBigEndian bytes < 256 ^ bytes.length := by
  induction bytes with
  | nil => simp [ofBigEndian]
  | cons byte rest ih =>
    have small := byte.toNat_lt
    rw [ofBigEndian_cons, List.length_cons, Nat.pow_succ]
    have bound : byte.toNat * 256 ^ rest.length ≤ 255 * 256 ^ rest.length :=
      Nat.mul_le_mul_right _ (by omega)
    omega

private theorem two_pow_bits (width : Nat) : 2 ^ (8 * width) = 256 ^ width := by
  rw [Nat.pow_mul]

@[simp] theorem ofBigEndian_bigEndian (width n : Nat) :
    ofBigEndian (bigEndian width n) = n % 256 ^ width := by
  induction width with
  | zero => simp [bigEndian, ofBigEndian, Nat.mod_one]
  | succ width ih =>
    have split : n % 256 ^ (width + 1) =
        n % 256 ^ width + 256 ^ width * (n / 256 ^ width % 256) := by
      rw [Nat.pow_succ, Nat.mod_mul]
    rw [bigEndian, ofBigEndian_cons, ih, bigEndian_length, split, UInt8.toNat_ofNat',
      Nat.shiftRight_eq_div_pow, two_pow_bits]
    ring

theorem lt_pow_byteWidth (n : Nat) : n < 256 ^ byteWidth n := by
  have below : n < 2 ^ (n.log2 + 1) := Nat.lt_log2_self
  have wide : (2 : Nat) ^ (n.log2 + 1) ≤ 2 ^ (8 * byteWidth n) :=
    Nat.pow_le_pow_right (by decide) (by unfold byteWidth; omega)
  rw [two_pow_bits] at wide
  omega

theorem byteWidth_pos (n : Nat) : 0 < byteWidth n := by
  simp [byteWidth]

theorem pow_byteWidth_le {n : Nat} (nonzero : n ≠ 0) : 256 ^ (byteWidth n - 1) ≤ n := by
  have least : 2 ^ n.log2 ≤ n := Nat.log2_self_le nonzero
  have narrow : (2 : Nat) ^ (8 * (byteWidth n - 1)) ≤ 2 ^ n.log2 :=
    Nat.pow_le_pow_right (by decide) (by unfold byteWidth; omega)
  rw [two_pow_bits] at narrow
  omega

theorem byteWidth_le {n width : Nat} (small : n < 256 ^ width) (pos : 0 < width) :
    byteWidth n ≤ width := by
  by_cases zero : n = 0
  · subst zero
    exact pos
  · have least := pow_byteWidth_le zero
    have exponents : byteWidth n - 1 < width :=
      (Nat.pow_lt_pow_iff_right (by decide : 1 < 256)).1 (by omega)
    omega

theorem byteWidth_mono {m n : Nat} (le : m ≤ n) : byteWidth m ≤ byteWidth n :=
  byteWidth_le (Nat.lt_of_le_of_lt le (lt_pow_byteWidth n)) (byteWidth_pos n)

@[simp] theorem ofBigEndian_minimalBigEndian (n : Nat) : ofBigEndian (minimalBigEndian n) = n := by
  rw [minimalBigEndian, ofBigEndian_bigEndian, Nat.mod_eq_of_lt (lt_pow_byteWidth n)]

theorem minimalBigEndian_injective {m n : Nat} (same : minimalBigEndian m = minimalBigEndian n) :
    m = n := by
  rw [← ofBigEndian_minimalBigEndian m, same, ofBigEndian_minimalBigEndian]

theorem minimalBigEndian_ne_nil (n : Nat) : minimalBigEndian n ≠ [] := by
  have pos := byteWidth_pos n
  intro empty
  have length := congrArg List.length empty
  simp at length
  omega

theorem head?_minimalBigEndian {n : Nat} (zero : (minimalBigEndian n).head? = some 0) : n = 0 := by
  obtain ⟨rest, shape⟩ := List.head?_eq_some_iff.1 zero
  have value := ofBigEndian_minimalBigEndian n
  have length := minimalBigEndian_length n
  rw [shape, ofBigEndian_cons] at value
  rw [shape, List.length_cons] at length
  by_contra nonzero
  have least := pow_byteWidth_le nonzero
  have below := ofBigEndian_lt rest
  rw [show byteWidth n - 1 = rest.length by omega] at least
  simp at value
  omega

theorem ofBigEndian_inj {a b : Bytes} (long : a.length = b.length)
    (same : ofBigEndian a = ofBigEndian b) : a = b := by
  induction a generalizing b with
  | nil => exact (List.eq_nil_of_length_eq_zero long.symm).symm
  | cons x xs ih =>
    obtain ⟨y, ys, rfl⟩ := List.exists_cons_of_length_eq_add_one long.symm
    simp only [List.length_cons, Nat.add_right_cancel_iff] at long
    rw [ofBigEndian_cons, ofBigEndian_cons, ← long] at same
    have first := ofBigEndian_lt xs
    have second := ofBigEndian_lt ys
    rw [← long] at second
    have pos : 0 < 256 ^ xs.length := Nat.pow_pos (by decide)
    have heads : x.toNat = y.toNat := by
      have quotients := congrArg (· / 256 ^ xs.length) same
      simpa [Nat.mul_add_div pos, Nat.mul_comm _ (256 ^ xs.length), Nat.div_eq_of_lt first,
        Nat.div_eq_of_lt second] using quotients
    rw [heads] at same
    rw [UInt8.toNat_inj.1 heads, ih long (by omega)]

theorem bigEndian_ofBigEndian {width : Nat} {bytes : Bytes} (long : bytes.length = width) :
    bigEndian width (ofBigEndian bytes) = bytes := by
  subst long
  exact ofBigEndian_inj (by simp) (by simp [Nat.mod_eq_of_lt (ofBigEndian_lt bytes)])

theorem minimalBigEndian_ofBigEndian {bytes : Bytes} (nonempty : bytes ≠ [])
    (minimal : ¬ (1 < bytes.length ∧ bytes.head? = some 0)) :
    minimalBigEndian (ofBigEndian bytes) = bytes := by
  obtain ⟨byte, rest, rfl⟩ := List.exists_cons_of_ne_nil nonempty
  have narrow : byteWidth (ofBigEndian (byte :: rest)) ≤ rest.length + 1 :=
    byteWidth_le (ofBigEndian_lt _) (by omega)
  have wide : rest.length + 1 ≤ byteWidth (ofBigEndian (byte :: rest)) := by
    by_cases single : rest = []
    · subst single
      exact byteWidth_pos _
    · have leading : byte ≠ 0 := fun zero => minimal
        ⟨by simpa [List.length_pos_iff] using single, by simp [zero]⟩
      have positive : 0 < byte.toNat := by
        by_contra low
        exact leading (UInt8.toNat_inj.1 (by simpa using low))
      by_contra less
      have bound := lt_pow_byteWidth (ofBigEndian (byte :: rest))
      have grow : 256 ^ byteWidth (ofBigEndian (byte :: rest)) ≤ 256 ^ rest.length :=
        Nat.pow_le_pow_right (by decide) (by omega)
      have large : 256 ^ rest.length ≤ byte.toNat * 256 ^ rest.length :=
        Nat.le_mul_of_pos_left _ positive
      rw [ofBigEndian_cons] at bound grow
      omega
  exact bigEndian_ofBigEndian (Nat.le_antisymm wide narrow)

theorem utf8_injective {a b : String} (same : utf8 a = utf8 b) : a = b := by
  apply String.toByteArray_inj.1
  rw [← String.utf8Encode_toList, ← String.utf8Encode_toList, List.utf8Encode, List.utf8Encode]
  exact congrArg List.toByteArray same

end CryptoConditions
