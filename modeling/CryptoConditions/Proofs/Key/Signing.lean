import CryptoConditions.Proofs.Key.Pss
import CryptoConditions.Proofs.Key.Rsa
import Mathlib.Data.Int.ModEq
import Mathlib.FieldTheory.Finite.Basic

/-! RSA signatures. What a private key signs, its public half takes back; and a key whose
factors are different primes signs every message, since its power undoes the public one
modulo either factor. -/

namespace CryptoConditions

namespace Modular

theorem euclid_modEq {a m : Int} {r s : Nat} {t u : Int} (first : t * a ≡ r [ZMOD m])
    (second : u * a ≡ s [ZMOD m]) : (euclid r s t u).2 * a ≡ (euclid r s t u).1 [ZMOD m] := by
  fun_induction euclid r s t u with
  | case1 => exact first
  | case2 r s t u nonzero ih =>
    refine ih second ?_
    have remainder : ((r % s : Nat) : Int) = r - (r / s : Nat) * s := by
      rw [Int.natCast_mod, Int.natCast_ediv, Int.emod_def]
      ring
    calc (t - (r / s : Nat) * u) * a = t * a - (r / s : Nat) * (u * a) := by ring
      _ ≡ r - (r / s : Nat) * s [ZMOD m] := first.sub (second.mul_left _)
      _ = (r % s : Nat) := remainder.symm

theorem inverse?_modEq {a m k : Nat} (pos : 0 < m) (found : inverse? a m = some k) :
    k * a ≡ 1 [MOD m] := by
  unfold inverse? at found
  have start : (0 : Int) * a ≡ (m : Nat) [ZMOD m] := by
    rw [Int.zero_mul]
    exact (Int.modEq_zero_iff_dvd.2 (dvd_refl _)).symm
  have next : (1 : Int) * a ≡ (a % m : Nat) [ZMOD m] := by
    rw [Int.one_mul, Int.natCast_mod]
    exact (Int.mod_modEq _ _).symm
  have factors := euclid_modEq start next
  cases pair : euclid m (a % m) 0 1 with
  | mk divisor factor =>
    rw [pair] at found factors
    dsimp only at found factors
    split at found
    · next unit =>
      cases found
      have value : (((factor % m).toNat : Nat) : Int) = factor % m :=
        Int.toNat_of_nonneg (Int.emod_nonneg _ (by omega))
      refine Int.natCast_modEq_iff.1 ?_
      rw [Nat.cast_mul, value]
      calc factor % m * a ≡ factor * a [ZMOD m] := (Int.mod_modEq _ _).mul_right _
        _ ≡ divisor [ZMOD m] := factors
        _ = 1 := by rw [unit, Nat.cast_one]
    · cases found

theorem pow_modEq_self {p k : Nat} (prime : p.Prime) (one : k % (p - 1) = 1) (c : Nat) :
    c ^ k ≡ c [MOD p] := by
  have fact := Fact.mk prime
  have split : k = (p - 1) * (k / (p - 1)) + 1 := by
    have divided := Nat.div_add_mod k (p - 1)
    omega
  refine (ZMod.natCast_eq_natCast_iff _ _ _).1 ?_
  rw [Nat.cast_pow, split, pow_succ, pow_mul]
  by_cases zero : (c : ZMod p) = 0
  · rw [zero, mul_zero]
  · rw [ZMod.pow_card_sub_one_eq_one zero, one_pow, one_mul]

theorem joined_modEq {p q k : Nat} (pos : 0 < p) (unit : k * q ≡ 1 [MOD p]) (a b : Nat) :
    b + q * ((a + (p - b % p)) * k % p) ≡ a [MOD p] := by
  have whole : b + (a + (p - b % p)) = a + p * (b / p + 1) := by
    have divided := Nat.div_add_mod b p
    have low := Nat.mod_lt b pos
    rw [Nat.mul_add]
    omega
  calc b + q * ((a + (p - b % p)) * k % p)
      ≡ b + q * ((a + (p - b % p)) * k) [MOD p] :=
        ((Nat.mod_modEq _ _).mul_left q).add_left b
    _ = b + (a + (p - b % p)) * (k * q) := by ring
    _ ≡ b + (a + (p - b % p)) * 1 [MOD p] := (unit.mul_left _).add_left b
    _ = a + p * (b / p + 1) := by rw [Nat.mul_one, whole]
    _ ≡ a [MOD p] := by simp [Nat.ModEq]

end Modular

namespace Rsa.PrivateKey

theorem power_lt (key : PrivateKey) (c : Nat) : key.power c < key.modulus.val := by
  obtain ⟨_, _, _, _, p_pos, q_pos, product, _⟩ := key.consistent
  unfold power
  split
  · rw [Modular.pow_eq]
    exact Nat.mod_lt _ (by rw [← product]; exact Nat.mul_pos (by omega) (by omega))
  · next coefficient _ =>
    dsimp only
    have low : Modular.pow c (key.secret % (key.q - 1)) key.q < key.q := by
      rw [Modular.pow_eq]
      exact Nat.mod_lt _ (by omega)
    have high (x : Nat) : key.q * (x % key.p) ≤ key.q * (key.p - 1) :=
      Nat.mul_le_mul_left _ (Nat.le_pred_of_lt (Nat.mod_lt _ (by omega)))
    have whole : key.q * (key.p - 1) + key.q = key.modulus.val := by
      rw [← Nat.mul_succ, Nat.succ_eq_add_one, Nat.sub_add_cancel (by omega), Nat.mul_comm, product]
    have bound := high ((Modular.pow c (key.secret % (key.p - 1)) key.p + (key.p -
      Modular.pow c (key.secret % (key.q - 1)) key.q % key.p)) * coefficient)
    omega

theorem power_modEq (key : PrivateKey) (c : Nat) :
    (∃ d, d * key.exponent % (key.p - 1) = 1 ∧ key.power c ≡ c ^ d [MOD key.p]) ∧
      ∃ d, d * key.exponent % (key.q - 1) = 1 ∧ key.power c ≡ c ^ d [MOD key.q] := by
  obtain ⟨_, _, _, _, p_pos, q_pos, product, left, right⟩ := key.consistent
  have reduced (m : Nat) : key.secret % m * key.exponent % m = key.exponent * key.secret % m := by
    rw [Nat.mod_mul_mod, Nat.mul_comm]
  unfold power
  split
  · have whole : Modular.pow c key.secret key.modulus.val ≡ c ^ key.secret [MOD key.p * key.q] := by
      rw [product, Modular.pow_eq]
      exact Nat.mod_modEq _ _
    exact ⟨⟨key.secret, by rw [Nat.mul_comm]; exact left, whole.of_mul_right _⟩,
      ⟨key.secret, by rw [Nat.mul_comm]; exact right, whole.of_mul_left _⟩⟩
  · next coefficient found =>
    dsimp only
    refine ⟨⟨key.secret % (key.p - 1), by rw [reduced]; exact left, ?_⟩,
      ⟨key.secret % (key.q - 1), by rw [reduced]; exact right, ?_⟩⟩
    · have unit := Modular.inverse?_modEq (by omega) found
      refine (Modular.joined_modEq (by omega) unit _ _).trans ?_
      rw [Modular.pow_eq]
      exact Nat.mod_modEq _ _
    · rw [Modular.pow_eq _ _ key.q]
      refine Nat.ModEq.trans ?_ (Nat.mod_modEq _ _)
      simp [Nat.ModEq]

theorem power_pow (key : PrivateKey) (p_prime : key.p.Prime) (q_prime : key.q.Prime)
    (different : key.p ≠ key.q) (c : Nat) :
    key.power c ^ key.exponent ≡ c [MOD key.modulus.val] := by
  obtain ⟨_, _, _, _, _, _, product, _⟩ := key.consistent
  obtain ⟨⟨d, one, left⟩, ⟨d', one', right⟩⟩ := key.power_modEq c
  have coprime : Nat.Coprime key.p key.q := (Nat.coprime_primes p_prime q_prime).2 different
  rw [← product]
  refine (Nat.modEq_and_modEq_iff_modEq_mul coprime).1 ⟨?_, ?_⟩
  · refine (left.pow key.exponent).trans ?_
    rw [← pow_mul]
    exact Modular.pow_modEq_self p_prime one c
  · refine (right.pow key.exponent).trans ?_
    rw [← pow_mul]
    exact Modular.pow_modEq_self q_prime one' c

section Sign

variable {key : PrivateKey} {salt : Octets 32} {message signature : Bytes}

theorem verify_of_sign (ok : key.sign salt message = .ok signature) :
    verify key.publicKey message signature = true := by
  unfold sign at ok
  split at ok
  · cases ok
  · next encoded made =>
    dsimp only at ok
    split at ok
    · next undone =>
      cases ok
      have small : key.power (ofBigEndian encoded) < 256 ^ key.modulus.length :=
        Nat.lt_trans (key.power_lt _) (lt_pow_byteWidth _)
      have long := Pss.encode?_length salt.length_eq made
      rw [verify, Bool.and_eq_true, bigEndian_length, ofBigEndian_bigEndian,
        Nat.mod_eq_of_lt small]
      refine ⟨beq_self_eq_true _, ?_⟩
      dsimp only [publicKey]
      rw [undone, bigEndian_ofBigEndian long]
      exact Pss.check_encode? salt.length_eq made
    · cases ok

theorem sign_of_prime (p_prime : key.p.Prime) (q_prime : key.q.Prime)
    (different : key.p ≠ key.q) (salt : Octets 32) (message : Bytes) :
    ∃ signature, key.sign salt message = .ok signature := by
  have long := key.minLength_le
  have large := key.modulus.large
  unfold minLength Modulus.length byteWidth at long
  have nonzero : key.modulus.val ≠ 0 := by omega
  have bits : key.modulus.encodedBits = key.modulus.val.log2 := by
    rw [Modulus.encodedBits, bitLength, if_neg nonzero, Nat.add_sub_cancel]
  obtain ⟨encoded, made⟩ : ∃ encoded,
      Pss.encode? key.modulus.encodedBits (sha256 message) salt.bytes = some encoded := by
    rw [Pss.encode?, if_neg (by rw [bits, Pss.encodedLength]; omega)]
    exact ⟨_, rfl⟩
  have below : ofBigEndian encoded < key.modulus.val := by
    refine Nat.lt_of_lt_of_le (Pss.encode?_lt salt.length_eq made) ?_
    rw [bits]
    exact Nat.log2_self_le nonzero
  have undone : Modular.pow (key.power (ofBigEndian encoded)) key.exponent key.modulus.val =
      ofBigEndian encoded := by
    rw [Modular.pow_eq]
    exact Nat.mod_eq_of_modEq (key.power_pow p_prime q_prime different _) below
  refine ⟨bigEndian key.modulus.length (key.power (ofBigEndian encoded)), ?_⟩
  simp only [sign, made, undone, if_true]

end Sign

end Rsa.PrivateKey

end CryptoConditions
