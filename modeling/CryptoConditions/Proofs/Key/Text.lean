import CryptoConditions.Key.Basic
import CryptoConditions.Proofs.Key.Rsa
import CryptoConditions.Proofs.Steps
import CryptoConditions.Proofs.Text.Base58

/-! The text of a public key names the key. An RSA key goes by its modulus alone, so it has to
have the exponent that the modulus stands for, and a length that no other scheme uses. A key in turn
has one text: what reads a text keeps every byte of it, and base58 has one text for the bytes. -/

namespace CryptoConditions.PublicKey

/-- A key that can own an output: one of Ed25519, or one of RSA that can sign and has the
exponent that its modulus stands for. -/
def Standard : PublicKey → Prop
  | ed25519 _ => True
  | rsa key => key.exponent = Rsa.publicExponent ∧ Rsa.minLength ≤ key.modulus.length

theorem ofBytes_octets (key : Ed25519.PublicKey) :
    ofBytes key.octets.bytes = .ok (ed25519 key) := by
  -- What decides whether 32 bytes are a point is kept closed: it is costly to compute.
  have known := Ed25519.PublicKey.ofOctets?_octets key
  obtain ⟨read, closed⟩ : ∃ read, read = Ed25519.PublicKey.ofOctets? := ⟨_, rfl⟩
  rw [← closed] at known
  rw [ofBytes, ← closed, Octets.ofBytes?_bytes]
  simp only [known]

theorem ofBytes_modulus {modulus : Rsa.Modulus} (long : Rsa.minLength ≤ modulus.length) :
    ofBytes modulus.bytes = .ok (rsa ⟨modulus, Rsa.publicExponent⟩) := by
  have most := modulus.length_le
  have other : Octets.ofBytes? 32 modulus.bytes = none := by
    rw [Octets.ofBytes?, dif_neg]
    rw [modulus.bytes_length]
    unfold Rsa.minLength at long
    omega
  rw [ofBytes, other, modulus.bytes_length]
  dsimp only
  rw [if_pos ⟨long, most⟩, Rsa.PublicKey.ofModulus_bytes]
  rfl

theorem ofBytes_bytes {key : PublicKey} (standard : key.Standard) :
    ofBytes key.bytes = .ok key := by
  cases key with
  | ed25519 key => exact ofBytes_octets key
  | rsa key =>
    obtain ⟨modulus, exponent⟩ := key
    obtain ⟨rfl, long⟩ := standard
    exact ofBytes_modulus long

theorem standard_of_ofBytes {bytes : Bytes} {key : PublicKey} (ok : ofBytes bytes = .ok key) :
    key.Standard := by
  obtain ⟨read, closed⟩ : ∃ read, read = Ed25519.PublicKey.ofOctets? := ⟨_, rfl⟩
  rw [ofBytes, ← closed] at ok
  split at ok
  · split at ok
    · cases ok
      exact True.intro
    · cases ok
  · split at ok
    · next fits =>
      obtain ⟨own, made, rfl⟩ := map_eq_ok.1 ok
      obtain ⟨form, exponent⟩ := Rsa.PublicKey.ofModulus_eq_ok made
      rw [← form, Rsa.Modulus.bytes_length] at fits
      exact ⟨exponent, fits.1⟩
    · cases ok

theorem standard_of_ofBase58 {text : String} {key : PublicKey} (ok : ofBase58 text = .ok key) :
    key.Standard := by
  unfold ofBase58 at ok
  split at ok
  · exact standard_of_ofBytes ok
  · cases ok

theorem ofBase58_base58 {key : PublicKey} (standard : key.Standard) :
    ofBase58 key.base58 = .ok key := by
  rw [ofBase58, base58, Base58.decode?_encode]
  exact ofBytes_bytes standard

theorem bytes_of_ofBytes {bytes : Bytes} {key : PublicKey} (ok : ofBytes bytes = .ok key) :
    key.bytes = bytes := by
  obtain ⟨read, closed⟩ : ∃ read, read = Ed25519.PublicKey.ofOctets? := ⟨_, rfl⟩
  rw [ofBytes, ← closed] at ok
  split at ok
  · next octets fits =>
    split at ok
    · next own valid =>
      cases ok
      rw [closed] at valid
      have kept : own.octets = octets := Ed25519.PublicKey.octets_of_ofOctets? valid
      rw [PublicKey.bytes, kept, Octets.bytes_of_ofBytes? fits]
    · cases ok
  · split at ok
    · obtain ⟨own, made, rfl⟩ := map_eq_ok.1 ok
      exact (Rsa.PublicKey.ofModulus_eq_ok made).1
    · cases ok

theorem base58_of_ofBase58 {text : String} {key : PublicKey} (ok : ofBase58 text = .ok key) :
    key.base58 = text := by
  unfold ofBase58 at ok
  split at ok
  · next spelled =>
    rw [base58, bytes_of_ofBytes ok, Base58.encode_of_decode? spelled]
  · cases ok

theorem type_eq_iff_length {key : PublicKey} (standard : key.Standard) :
    key.type = .ed25519 ↔ key.bytes.length = 32 := by
  cases key with
  | ed25519 key => simp [type, bytes, key.octets.length_eq]
  | rsa key =>
    have long := standard.2
    unfold Rsa.minLength at long
    have other : key.modulus.length ≠ 32 := by omega
    simp [type, bytes, Rsa.Modulus.bytes_length, other]

/-- A key has one text, and a text names one key. What a text names is written as this text; the
key that bytes stand for has these bytes, which tell its type by their number, and is named by its
own text. -/
theorem named_by_text :
    (∀ text key, ofBase58 text = .ok key → key.base58 = text) ∧
    ∀ bytes key, ofBytes bytes = .ok key →
      key.bytes = bytes ∧ (key.type = .ed25519 ↔ bytes.length = 32) ∧
        ofBase58 key.base58 = .ok key := by
  refine ⟨fun text key ok => base58_of_ofBase58 ok, fun bytes key ok => ?_⟩
  have standard := standard_of_ofBytes ok
  have same := bytes_of_ofBytes ok
  refine ⟨same, ?_, ofBase58_base58 standard⟩
  rw [← same]
  exact type_eq_iff_length standard

section Samples

def zeroKey : Ed25519.PublicKey :=
  ⟨⟨0 :: List.replicate 31 0, rfl⟩, by decide +kernel⟩

def zeroKeyText : String := "11111111111111111111111111111111"

theorem ofBase58_zeroKeyText : ofBase58 zeroKeyText = .ok (ed25519 zeroKey) := by
  have spelled : Base58.decode? zeroKeyText = some zeroKey.octets.bytes := by decide +kernel
  rw [ofBase58, spelled]
  exact ofBytes_octets zeroKey

def largeModulus : Rsa.Modulus :=
  ⟨2 ^ 1024 - 1, by decide +kernel, by decide +kernel, by decide +kernel⟩

theorem ofBytes_largeModulus :
    ofBytes (List.replicate 128 255) = .ok (rsa ⟨largeModulus, Rsa.publicExponent⟩) := by
  have long : Rsa.minLength ≤ largeModulus.length := by decide +kernel
  have form : largeModulus.bytes = List.replicate 128 255 := by decide +kernel
  rw [← form]
  exact ofBytes_modulus long

theorem named_by_text_samples :
    (ofBase58 zeroKeyText = .ok (ed25519 zeroKey) ∧
      (ed25519 zeroKey).base58 = zeroKeyText) ∧
    ∃ key, ofBytes (List.replicate 128 255) = .ok key ∧ key.bytes = List.replicate 128 255 ∧
      (key.type = .ed25519 ↔ (List.replicate 128 (255 : UInt8)).length = 32) ∧
      ofBase58 key.base58 = .ok key := by
  obtain ⟨texts, keys⟩ := named_by_text
  exact ⟨⟨ofBase58_zeroKeyText, texts _ _ ofBase58_zeroKeyText⟩, _, ofBytes_largeModulus,
    keys _ _ ofBytes_largeModulus⟩

end Samples

end CryptoConditions.PublicKey
