import CryptoConditions.Key.Rsa
import CryptoConditions.Proofs.Bytes

/-! The bytes of a modulus have one form: they are read as the modulus, and
nothing else is. -/

namespace CryptoConditions.Rsa

namespace Modulus

theorem bytes_length (n : Modulus) : n.bytes.length = n.length :=
  minimalBigEndian_length n.val

theorem bytes_injective {m n : Modulus} (same : m.bytes = n.bytes) : m = n := by
  obtain ⟨a, _, _, _⟩ := m
  obtain ⟨b, _, _, _⟩ := n
  have value : a = b := minimalBigEndian_injective same
  subst value
  rfl

theorem length_le (n : Modulus) : n.length ≤ maxLength := by
  have fits := n.fits
  have large := n.large
  unfold bitLength at fits
  unfold length byteWidth maxLength
  split at fits
  · omega
  · omega

theorem ofNat_val (n : Modulus) : ofNat n.val = .ok n := by
  rw [ofNat, dif_pos n.fits, dif_pos ⟨n.odd, n.large⟩]

theorem val_of_ofNat {n : Nat} {modulus : Modulus} (ok : ofNat n = .ok modulus) :
    modulus.val = n := by
  unfold ofNat at ok
  split at ok
  · split at ok
    · cases ok
      rfl
    · cases ok
  · cases ok

end Modulus

theorem PublicKey.ofModulus_bytes (n : Modulus) :
    ofModulus n.bytes = .ok ⟨n, publicExponent⟩ := by
  have large := n.large
  have leading : n.bytes.head?.all (· == 0) = false := by
    cases head : n.bytes.head? with
    | none => exact absurd (List.head?_eq_none_iff.1 head) (minimalBigEndian_ne_nil n.val)
    | some byte =>
      rw [Option.all_some, beq_eq_false_iff_ne]
      rintro rfl
      have zero := head?_minimalBigEndian head
      omega
  have made : Modulus.ofNat (ofBigEndian n.bytes) = .ok n := by
    rw [Modulus.bytes, ofBigEndian_minimalBigEndian, n.ofNat_val]
  rw [ofModulus, leading, made]
  rfl

theorem PublicKey.ofModulus_eq_ok {bytes : Bytes} {key : PublicKey}
    (ok : ofModulus bytes = .ok key) :
    key.modulus.bytes = bytes ∧ key.exponent = publicExponent := by
  unfold ofModulus at ok
  split at ok
  · cases ok
  · next leading =>
    split at ok
    · next n made =>
      cases ok
      refine ⟨?_, rfl⟩
      cases bytes with
      | nil => exact absurd rfl leading
      | cons byte rest =>
        rw [Modulus.bytes, Modulus.val_of_ofNat made]
        exact minimalBigEndian_ofBigEndian (by simp) fun zero => leading (by simpa using zero.2)
    · cases ok

end CryptoConditions.Rsa
