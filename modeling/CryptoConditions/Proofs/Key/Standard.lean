import CryptoConditions.Proofs.Key.Private
import CryptoConditions.Proofs.Key.Text

/-! The key that the text of a key names. It is the key itself, but for an RSA key with an exponent
of its own: the text has the modulus alone, which stands for the one exponent. -/

namespace CryptoConditions

namespace PublicKey

def Long : PublicKey → Prop
  | ed25519 _ => True
  | rsa key => Rsa.minLength ≤ key.modulus.length

/-- An RSA key with the exponent that its modulus stands for. -/
def toStandard : PublicKey → PublicKey
  | ed25519 key => ed25519 key
  | rsa key => rsa ⟨key.modulus, Rsa.publicExponent⟩

variable {key : PublicKey}

@[simp] theorem bytes_toStandard (key : PublicKey) : key.toStandard.bytes = key.bytes := by
  cases key <;> rfl

@[simp] theorem base58_toStandard (key : PublicKey) : key.toStandard.base58 = key.base58 := by
  rw [base58, base58, bytes_toStandard]

theorem Standard.long (standard : key.Standard) : key.Long := by
  cases key with
  | ed25519 key => exact True.intro
  | rsa key => exact standard.2

theorem Long.toStandard (long : key.Long) : key.toStandard.Standard := by
  cases key with
  | ed25519 key => exact True.intro
  | rsa key => exact ⟨rfl, long⟩

theorem toStandard_of_standard (standard : key.Standard) : key.toStandard = key := by
  cases key with
  | ed25519 key => rfl
  | rsa key =>
    obtain ⟨modulus, exponent⟩ := key
    obtain ⟨rfl, _⟩ := standard
    rfl

theorem toStandard_eq_self_iff :
    key.toStandard = key ↔ ∀ own, key = rsa own → own.exponent = Rsa.publicExponent := by
  cases key with
  | ed25519 key => exact ⟨nofun, fun _ => rfl⟩
  | rsa key =>
    obtain ⟨modulus, exponent⟩ := key
    simp [toStandard, eq_comm]

theorem ofBase58_of_long (long : key.Long) : ofBase58 key.base58 = .ok key.toStandard := by
  rw [← base58_toStandard]
  exact ofBase58_base58 long.toStandard

theorem toStandard_of_base58 (long : key.Long) {named : PublicKey}
    (read : ofBase58 key.base58 = .ok named) : key.toStandard = named := by
  rw [ofBase58_of_long long] at read
  exact Except.ok.inj read

end PublicKey

namespace KeyPair

theorem long_publicKey (pair : KeyPair) : pair.publicKey.Long := by
  cases pair with
  | ed25519 pair => exact True.intro
  | rsa key => exact key.minLength_le

theorem toStandard_publicKey_iff {pair : KeyPair} :
    pair.publicKey.toStandard = pair.publicKey ↔
      ∀ own, pair = rsa own → own.exponent = Rsa.publicExponent := by
  rw [PublicKey.toStandard_eq_self_iff]
  cases pair with
  | ed25519 pair => exact ⟨fun _ => nofun, fun _ => nofun⟩
  | rsa key =>
    constructor
    · rintro exponent _ ⟨⟩
      exact exponent _ rfl
    · rintro exponent _ ⟨⟩
      exact exponent _ rfl

theorem toStandard_of_generate {type : KeyType} {seed : Bytes} {pair : KeyPair}
    (made : generate type seed = .ok pair) : pair.publicKey.toStandard = pair.publicKey :=
  PublicKey.toStandard_of_standard (standard_of_generate made)

end KeyPair

end CryptoConditions
