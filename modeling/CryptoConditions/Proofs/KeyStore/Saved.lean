import CryptoConditions.KeyStore.Basic
import CryptoConditions.Proofs.Json.Record
import CryptoConditions.Proofs.Key.Private

/-! The text of a stored key. It is there if the private key has a text, and it is read as the
pair and the label that it was written for. -/

namespace CryptoConditions

theorem KeyType.ofName?_name (type : KeyType) : ofName? type.name = some type := by
  cases type <;> decide

namespace StoredKey

open Json

variable {key : StoredKey} {text : String}

def fileJson (key : StoredKey) (privateText : String) : Json :=
  .object [("key_type", .string key.pair.type.name), ("public_key", .string key.publicKey.base58),
    ("private_key", .string privateText), ("label", .ofOption .string key.label)]

theorem text_eq_ok (ok : key.text = .ok text) :
    ∃ privateText, key.pair.privateText = .ok privateText ∧
      text = (key.fileJson privateText).pretty := by
  obtain ⟨privateText, known, written⟩ := bind_eq_ok.1 ok
  exact ⟨privateText, known, pure_eq_ok.1 written⟩

theorem exists_text_iff : (∃ text, key.text = .ok text) ↔ key.pair.Writable := by
  rw [← KeyPair.exists_privateText_iff]
  constructor
  · rintro ⟨_, ok⟩
    obtain ⟨privateText, known, _⟩ := text_eq_ok ok
    exact ⟨privateText, known⟩
  · rintro ⟨privateText, known⟩
    exact ⟨_, by rw [StoredKey.text, bind_of_ok known]; rfl⟩

theorem numbers_fileJson (key : StoredKey) (privateText : String) :
    (key.fileJson privateText).Numbers Number.Normal := by
  cases label : key.label <;> simp [fileJson, label, Numbers, FieldNumbers, ofOption]

theorem fields?_written (key : StoredKey) (privateText : String) :
    fields? maxDepth (key.fileJson privateText).written =
      some (key.pair.type, key.publicKey.base58, privateText, key.label) := by
  have slots : slots? ["key_type", "public_key", "private_key", "label"]
      (key.fileJson privateText).written =
        some [.given (written (.string key.pair.type.name)),
          .given (written (.string key.publicKey.base58)), .given (written (.string privateText)),
          .given (written (.ofOption .string key.label))] := by
    rw [fileJson, slots?_written]
    simp [slotIn?, slotFrom?_single]
  have type : Decoder.choice KeyType.ofName? 126 (written (.string key.pair.type.name)) =
      some key.pair.type := choice_written key.pair.type.ofName?_name
  have label : Decoder.nullable Decoder.string 126 (written (.ofOption .string key.label)) =
      some key.label :=
    nullable_ofOption (fun _ _ null => by cases null) fun label _ => string_written label
  simp [maxDepth, fields?, slots, Slot.required, Slot.optional, string_written, type, label]

theorem ofText_text (held : key.pair.Held) (ok : key.text = .ok text) :
    ofText text = .ok key := by
  obtain ⟨privateText, known, rfl⟩ := text_eq_ok ok
  have read : Written.ofText? (key.fileJson privateText).pretty =
      some (key.fileJson privateText).written :=
    ofText?_chars (key.numbers_fileJson privateText) .indented
  have decoded : decode? fields? (key.fileJson privateText).pretty =
      some (key.pair.type, key.publicKey.base58, privateText, key.label) := by
    rw [decode?, read, Option.bind_eq_bind, Option.bind_some, fields?_written]
  have pair := KeyPair.ofPrivateText_privateText held known
  rw [ofText, decoded]
  dsimp only
  rw [pair]
  dsimp only
  rw [if_pos ⟨rfl, rfl⟩]

end StoredKey

end CryptoConditions
