import CryptoConditions.Key.Basic
import CryptoConditions.Proofs.Key.Pkcs8
import CryptoConditions.Proofs.Key.Text
import CryptoConditions.Proofs.Text.Base58
import CryptoConditions.Proofs.Text.Hex

/-! The text of a private key is read back as the key pair. The form of an RSA key has a zero near
its front, which no base58 text has, so that it is not taken for a seed. -/

namespace CryptoConditions

namespace Base58

theorem decode?_of_zero {text : String} (zero : '0' ∈ text.toList) : decode? text = none := by
  have stuck {chars : List Char} (mem : '0' ∈ chars) : chars.mapM symbolValue? = none := by
    induction chars with
    | nil => cases mem
    | cons c chars ih =>
      rw [List.mapM_cons]
      rcases List.mem_cons.1 mem with rfl | mem
      · rfl
      · rw [ih mem]
        cases symbolValue? c <;> rfl
  rw [decode?, decodeChars?, stuck zero]
  rfl

end Base58

namespace Hex

theorem length_of_decodeChars? {chars : List Char} {bytes : Bytes}
    (ok : decodeChars? chars = some bytes) : 2 * bytes.length = chars.length := by
  induction chars using decodeChars?.induct generalizing bytes with
  | case1 =>
    cases ok
    rfl
  | case2 => cases ok
  | case3 high low rest ih =>
    simp only [decodeChars?, Option.bind_eq_bind, Option.bind_eq_some_iff] at ok
    obtain ⟨_, _, _, _, others, read, ok⟩ := ok
    cases ok
    have length := ih read
    rw [List.length_cons, List.length_cons, List.length_cons]
    omega

end Hex

namespace KeyPair

/-- Whether a private key has a text. That of an RSA key has the inverse of one factor modulo the
other. -/
def Writable : KeyPair → Prop
  | ed25519 _ => True
  | rsa key => Nat.Coprime key.p key.q

instance : DecidablePred Writable
  | ed25519 _ => inferInstanceAs (Decidable True)
  | rsa key => inferInstanceAs (Decidable (Nat.Coprime key.p key.q))

/-- Whether a machine can hold the numbers of a private key; a seed has a length of its own. -/
def Held : KeyPair → Prop
  | ed25519 _ => True
  | rsa key => byteWidth key.secret < 2 ^ 63

/-- A pair that comes about: generated, which is any pair with the common exponent that a machine
can hold, or read from a text that a machine can hold. -/
inductive Obtained : KeyPair → Prop where
  | generated {pair : KeyPair} (held : pair.Held) (standard : pair.publicKey.Standard) :
      Obtained pair
  | read {text : String} {pair : KeyPair} (held : text.length < 2 ^ 64)
      (read : ofPrivateText text = .ok pair) : Obtained pair

theorem exists_privateText_iff {pair : KeyPair} :
    (∃ text, pair.privateText = .ok text) ↔ pair.Writable := by
  cases pair with
  | ed25519 pair => exact ⟨fun _ => True.intro, fun _ => ⟨_, rfl⟩⟩
  | rsa key =>
    rw [Writable, ← Pkcs8.exists_encode_iff]
    constructor
    · rintro ⟨_, ok⟩
      obtain ⟨bytes, encoded, _⟩ := map_eq_ok.1 ok
      exact ⟨bytes, encoded⟩
    · rintro ⟨bytes, encoded⟩
      exact ⟨_, map_eq_ok.2 ⟨bytes, encoded, rfl⟩⟩

-- Stated for the function as a whole, so that no point is computed where it is unfolded.
theorem ofSeed_eq : ofSeed = fun seed => match Ed25519.KeyPair.ofSeed? seed with
    | some pair => .ok (ed25519 pair)
    | none => .error .invalidPrivateKey := rfl

theorem ofSeed_seed (pair : Ed25519.KeyPair) : ofSeed pair.seed = .ok (ed25519 pair) := by
  rw [ofSeed_eq]
  dsimp only
  rw [pair.ofSeed?_seed]

theorem ofSeed_ne_rsa {seed : Octets 32} {key : Rsa.PrivateKey} : ofSeed seed ≠ .ok (rsa key) := by
  rw [ofSeed_eq]
  dsimp only
  cases Ed25519.KeyPair.ofSeed? seed <;> exact nofun

section Generated

variable {type : KeyType} {seed : Bytes}

theorem generate_eq_rsa {key : Rsa.PrivateKey} (made : generate type seed = .ok (rsa key)) :
    ∃ bits, Rsa.PrivateKey.generate bits seed = .ok key := by
  cases type with
  | ed25519 => exact absurd made ofSeed_ne_rsa
  | rsa =>
    obtain ⟨_, generated, same⟩ := map_eq_ok.1 made
    cases same
    exact ⟨_, generated⟩

theorem standard_of_generate {pair : KeyPair} (made : generate type seed = .ok pair) :
    pair.publicKey.Standard := by
  cases pair with
  | ed25519 => exact True.intro
  | rsa key =>
    obtain ⟨_, generated⟩ := generate_eq_rsa made
    exact ⟨Rsa.PrivateKey.exponent_of_generate generated, key.minLength_le⟩

theorem obtained_of_generate {pair : KeyPair} (made : generate type seed = .ok pair) :
    pair.Obtained := by
  refine .generated ?_ (standard_of_generate made)
  cases pair with
  | ed25519 => exact True.intro
  | rsa key =>
    obtain ⟨_, generated⟩ := generate_eq_rsa made
    have width := key.byteWidth_le_of_le (Rsa.PrivateKey.secret_le_of_generate generated)
    unfold Rsa.maxLength at width
    rw [Held]
    omega

end Generated

theorem Obtained.held {pair : KeyPair} (obtained : pair.Obtained) : pair.Held := by
  cases obtained with
  | generated held _ => exact held
  | @read text _ held read =>
    cases pair with
    | ed25519 => exact True.intro
    | rsa key =>
      unfold ofPrivateText at read
      split at read
      · exact absurd read ofSeed_ne_rsa
      · split at read
        · next bytes spelled =>
          obtain ⟨_, decoded, same⟩ := map_eq_ok.1 read
          cases same
          have width := Pkcs8.secret_of_decode decoded
          have length := Hex.length_of_decodeChars? spelled
          rw [String.length_toList] at length
          rw [Held]
          omega
        · cases read

theorem seed?_encode (seed : Octets 32) : seed? (Base58.encode seed.bytes) = some seed := by
  rw [seed?, Base58.decode?_encode, Option.bind_eq_bind, Option.bind_some, Octets.ofBytes?_bytes]

theorem ofPrivateText_seed (pair : Ed25519.KeyPair) :
    ofPrivateText (Base58.encode pair.seed.bytes) = .ok (ed25519 pair) := by
  rw [ofPrivateText, seed?_encode]
  exact ofSeed_seed pair

theorem seed?_encode_key {key : Rsa.PrivateKey} {bytes : Bytes}
    (ok : Pkcs8.encode key = .ok bytes) :
    seed? (Hex.encode bytes) = none := by
  -- The form of an RSA key starts with the digits of a sequence, three and zero, and base58 has
  -- no zero.
  obtain ⟨_, _, rfl⟩ := Pkcs8.encode_eq_ok ok
  rw [seed?, Base58.decode?_of_zero]
  · rfl
  · rw [Hex.encode, String.toList_ofList, Pkcs8.element, Hex.encodeChars, List.flatMap_cons]
    exact List.mem_append_left _ (by decide)

theorem ofPrivateText_privateText {pair : KeyPair} {text : String} (held : pair.Held)
    (ok : pair.privateText = .ok text) : ofPrivateText text = .ok pair := by
  cases pair with
  | ed25519 pair =>
    have spelled : Base58.encode pair.seed.bytes = text := Except.ok.inj ok
    rw [← spelled]
    exact ofPrivateText_seed pair
  | rsa key =>
    obtain ⟨bytes, encoded, rfl⟩ := map_eq_ok.1 ok
    rw [ofPrivateText, seed?_encode_key encoded]
    dsimp only
    rw [Hex.decode?_encode]
    dsimp only
    rw [Pkcs8.decode_of_encode held encoded]
    rfl

end KeyPair

end CryptoConditions
