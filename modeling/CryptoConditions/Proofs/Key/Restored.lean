import CryptoConditions.Proofs.Hash.Sha512
import CryptoConditions.Proofs.Key.Private
import Mathlib.NumberTheory.LucasLehmer

/-! A private key and its text stand for one another. Every form of an RSA key starts with the tag
of a sequence, whose second digit is zero, and base58 has no such symbol: no text is both the form
of an RSA key and a seed. -/

namespace CryptoConditions

namespace Numeral

theorem toNat_of_hexValue? {c : Char} {d : Nat} (read : hexValue? c = some d) :
    c.toNat = 48 + d ∧ d < 10 ∨ (c.toNat = 87 + d ∨ c.toNat = 55 + d) ∧ 10 ≤ d ∧ d < 16 := by
  unfold hexValue? at read
  split at read
  · next between =>
    cases read
    have first : 48 ≤ c.toNat := between.1
    have last : c.toNat ≤ 57 := between.2
    omega
  · split at read
    · next between =>
      cases read
      have first : 97 ≤ c.toNat := between.1
      have last : c.toNat ≤ 102 := between.2
      omega
    · split at read
      · next between =>
        cases read
        have first : 65 ≤ c.toNat := between.1
        have last : c.toNat ≤ 70 := between.2
        omega
      · cases read

theorem eq_zero_of_hexValue? {c : Char} (read : hexValue? c = some 0) : c = '0' := by
  have value := toNat_of_hexValue? read
  have zero : '0'.toNat = 48 := rfl
  exact Char.toNat_inj.1 (by omega)

end Numeral

namespace Hex

theorem zero_mem_of_decodeChars? {chars : List Char} {byte : UInt8} {rest : Bytes}
    (spelled : decodeChars? chars = some (byte :: rest)) (low : byte.toNat % 16 = 0) :
    '0' ∈ chars := by
  match chars with
  | [] => cases spelled
  | [_] => cases spelled
  | first :: second :: others =>
    simp only [decodeChars?, Option.bind_eq_bind, Option.bind_eq_some_iff] at spelled
    obtain ⟨h, _, l, digit, _, _, same⟩ := spelled
    have value := Numeral.toNat_of_hexValue? digit
    obtain ⟨rfl, rfl⟩ := List.cons.inj (Option.some.inj same)
    rw [UInt8.toNat_ofNat'] at low
    have nothing : l = 0 := by omega
    rw [nothing] at digit
    rw [← Numeral.eq_zero_of_hexValue? digit]
    exact List.mem_cons_of_mem _ List.mem_cons_self

end Hex

namespace Pkcs8

theorem front_of_readElement {tag : Tag} {bytes : Bytes} {found : Bytes × Bytes}
    (read : readElement tag bytes = some found) : ∃ rest, bytes = tag.byte :: rest := by
  unfold readElement at read
  split at read
  · cases read
  · next byte rest =>
    split at read
    · next same => exact ⟨rest, by rw [same]⟩
    · cases read

theorem front_of_decode {bytes : Bytes} {key : Rsa.PrivateKey} (ok : decode bytes = .ok key) :
    ∃ rest, bytes = Tag.sequence.byte :: rest := by
  unfold decode at ok
  split at ok
  · cases ok
  · next found =>
    simp only [Option.bind_eq_bind, Option.bind_eq_some_iff] at found
    obtain ⟨_, whole, _⟩ := found
    exact front_of_readElement (of_all? whole)

end Pkcs8

namespace KeyPair

theorem seed?_of_decode {text : String} {bytes : Bytes} {key : Rsa.PrivateKey}
    (spelled : Hex.decode? text = some bytes) (decoded : Pkcs8.decode bytes = .ok key) :
    seed? text = none := by
  obtain ⟨rest, rfl⟩ := Pkcs8.front_of_decode decoded
  have zero : '0' ∈ text.toList := Hex.zero_mem_of_decodeChars? spelled (by decide)
  rw [seed?, Base58.decode?_of_zero zero]
  rfl

theorem seed_of_ofSeed {seed : Octets 32} {pair : KeyPair} (made : ofSeed seed = .ok pair) :
    ∃ own, pair = ed25519 own ∧ own.seed = seed := by
  rw [ofSeed_eq] at made
  dsimp only at made
  split at made
  · next own known =>
    cases made
    exact ⟨own, rfl, Ed25519.KeyPair.seed_of_ofSeed? known⟩
  · cases made

theorem ofPrivateText_eq_rsa_iff {text : String} {key : Rsa.PrivateKey} :
    ofPrivateText text = .ok (rsa key) ↔
      ∃ bytes, Hex.decode? text = some bytes ∧ Pkcs8.decode bytes = .ok key := by
  constructor
  · intro read
    unfold ofPrivateText at read
    split at read
    · exact absurd read ofSeed_ne_rsa
    · split at read
      · next bytes spelled =>
        obtain ⟨_, decoded, same⟩ := map_eq_ok.1 read
        cases same
        exact ⟨bytes, spelled, decoded⟩
      · cases read
  · rintro ⟨bytes, spelled, decoded⟩
    rw [ofPrivateText, seed?_of_decode spelled decoded]
    dsimp only
    rw [spelled]
    dsimp only
    rw [decoded]
    rfl

theorem ofPrivateText_eq_ed25519_iff {text : String} {own : Ed25519.KeyPair} :
    ofPrivateText text = .ok (ed25519 own) ↔ (ed25519 own).privateText = .ok text := by
  constructor
  · intro read
    unfold ofPrivateText at read
    split at read
    · next seed spelled =>
      obtain ⟨_, same, known⟩ := seed_of_ofSeed read
      cases same
      obtain ⟨bytes, decoded, fits⟩ := Option.bind_eq_some_iff.1 spelled
      rw [privateText, known, Octets.bytes_of_ofBytes? fits, Base58.encode_of_decode? decoded]
    · split at read
      · obtain ⟨_, _, same⟩ := map_eq_ok.1 read
        cases same
      · cases read
  · intro written
    exact ofPrivateText_privateText True.intro written

/-- A pair is read back from its own text. The text of a seed is read as the pair of the seed and as
nothing else; a text that is the form of an RSA key is read as this key and never as a seed, and no
seed in base58 is read as an RSA key. -/
theorem restored_from_text :
    (∀ pair : KeyPair, pair.Obtained → ∀ text, pair.privateText = .ok text →
      ofPrivateText text = .ok pair) ∧
    (∀ text own, ofPrivateText text = .ok (ed25519 own) ↔
      (ed25519 own).privateText = .ok text) ∧
    (∀ text key, ofPrivateText text = .ok (rsa key) ↔
      ∃ bytes, Hex.decode? text = some bytes ∧ Pkcs8.decode bytes = .ok key) ∧
    ∀ (seed : Octets 32) key, ofPrivateText (Base58.encode seed.bytes) ≠ .ok (rsa key) := by
  refine ⟨fun pair obtained text written => ofPrivateText_privateText obtained.held written,
    fun _ _ => ofPrivateText_eq_ed25519_iff, fun _ _ => ofPrivateText_eq_rsa_iff,
    fun seed key read => ?_⟩
  rw [ofPrivateText, seed?_encode] at read
  exact ofSeed_ne_rsa read

section Samples

def onesPair : Ed25519.KeyPair where
  seed := ⟨1 :: List.replicate 31 1, rfl⟩
  publicKey := ⟨⟨[138, 136, 227, 221, 116, 9, 241, 149, 253, 82, 219, 45, 60, 186, 93, 114, 202,
    103, 9, 191, 29, 148, 18, 27, 243, 116, 136, 1, 180, 15, 111, 92], rfl⟩, by decide +kernel⟩
  publicKey_octets := by
    rw [Ed25519.Secret.ofSeed, Sha512.bytes_sha512]
    decide +kernel

def onesOwner : String := "AKnL4NNf3DGWZJS6cPknBuEGnVsV4A4m5tgebLHaRSZ9"

theorem base58_onesPair : (PublicKey.ed25519 onesPair.publicKey).base58 = onesOwner := by
  have chars : Base58.encodeChars (PublicKey.ed25519 onesPair.publicKey).bytes =
      onesOwner.toList := by decide +kernel
  rw [PublicKey.base58, Base58.encode, chars, String.ofList_toList]

theorem privateText_onesPair :
    (ed25519 onesPair).privateText = .ok "4vJ9JU1bJJE96FWSJKvHsmmFADCg4gpZQff4P3bkLKi" := by
  decide +kernel

theorem obtained_onesPair : (ed25519 onesPair).Obtained :=
  .generated True.intro True.intro

/-- A key of two Mersenne primes with a Fermat prime as its exponent, though not the usual one. -/
def fermatKey : Rsa.PrivateKey where
  modulus := ⟨mersenne 521 * mersenne 607, by decide +kernel, by decide +kernel, by decide +kernel⟩
  exponent := 257
  secret := (1 + 214 * ((mersenne 607 - 1) * (mersenne 521 - 1))) / 257
  p := mersenne 607
  q := mersenne 521
  consistent := by decide +kernel
  minLength_le := by decide +kernel

theorem exists_text_fermatKey : ∃ text, text.length < 2 ^ 64 ∧
    (rsa fermatKey).privateText = .ok text ∧ ofPrivateText text = .ok (rsa fermatKey) := by
  have counted : (Pkcs8.encode fermatKey).toOption.map List.length = some 697 := by decide +kernel
  obtain ⟨bytes, encoded⟩ := Pkcs8.exists_encode_iff.2
    (show Nat.Coprime fermatKey.p fermatKey.q by decide +kernel)
  have length : bytes.length = 697 := by
    rw [encoded] at counted
    exact Option.some.inj counted
  have written : (rsa fermatKey).privateText = .ok (Hex.encode bytes) :=
    map_eq_ok.2 ⟨bytes, encoded, rfl⟩
  have digits := Hex.length_of_decodeChars? (Hex.decode?_encode bytes)
  rw [length, String.length_toList] at digits
  have held : (rsa fermatKey).Held := show byteWidth fermatKey.secret < 2 ^ 63 by decide +kernel
  exact ⟨Hex.encode bytes, by omega, written, ofPrivateText_privateText held written⟩

theorem restored_from_text_samples :
    ((ed25519 onesPair).Obtained ∧ (rsa fermatKey).Obtained) ∧
    (∃ text, (ed25519 onesPair).privateText = .ok text ∧
      ofPrivateText text = .ok (ed25519 onesPair)) ∧
    ∃ text, (rsa fermatKey).privateText = .ok text ∧ ofPrivateText text = .ok (rsa fermatKey) ∧
      ∃ bytes, Hex.decode? text = some bytes ∧ Pkcs8.decode bytes = .ok fermatKey := by
  obtain ⟨own, _, form, _⟩ := restored_from_text
  obtain ⟨text, short, written, read⟩ := exists_text_fermatKey
  have obtained : (rsa fermatKey).Obtained := .read short read
  exact ⟨⟨obtained_onesPair, obtained⟩,
    ⟨_, privateText_onesPair, own _ obtained_onesPair _ privateText_onesPair⟩,
    text, written, own _ obtained _ written, (form _ _).1 read⟩

end Samples

end KeyPair

end CryptoConditions
