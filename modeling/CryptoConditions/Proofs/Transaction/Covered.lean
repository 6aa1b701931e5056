import CryptoConditions.Proofs.Bytes
import CryptoConditions.Proofs.Transaction.Printed

/-! Signatures and ids cover all of a document but the fulfillments. A signature of one document
cannot be moved to another; nor can an id, as long as no two byte strings with one hash are
found. -/

namespace CryptoConditions.Transaction

variable {a b t : Transaction}

/-- All fields agree but the id and the fulfillments of inputs; null metadata count as none. -/
structure SameContent (a b : Transaction) : Prop extends SameBody a b where
  metadata : a.withoutNull.metadata = b.withoutNull.metadata

theorem SameContent.of_withId {id id' : String}
    (same : SameContent (a.withId id) (b.withId id')) : SameContent a b :=
  ⟨⟨same.version, same.operation, same.asset, same.inputs, same.outputs, same.timestamp⟩,
    same.metadata⟩

def idBytes (t : Transaction) : Bytes :=
  utf8 (t.withId "").signingText

theorem calculateId_eq (t : Transaction) : t.calculateId = Hex.encode (sha256 t.idBytes).bytes :=
  rfl

theorem Proper.unsigned (proper : t.Proper) : t.unsigned.Proper :=
  ⟨proper.asset, proper.metadata, proper.timestamp⟩

theorem Proper.withId (proper : t.Proper) (id : String) : (t.withId id).Proper :=
  ⟨proper.asset, proper.metadata, proper.timestamp⟩

theorem sameContent_of_signingBytes (proper : a.Proper) (proper' : b.Proper)
    (same : a.signingBytes = b.signingBytes) : SameContent a b ∧ a.id = b.id := by
  have texts : a.unsigned.toJson.compact = b.unsigned.toJson.compact := utf8_injective same
  have values := Json.compact_injective proper.unsigned.numbers proper'.unsigned.numbers texts
  have parts : a.unsigned.withoutNull = b.unsigned.withoutNull :=
    toJson_injective proper.unsigned proper'.unsigned values
  have document : SameDocument a.withoutNull b.withoutNull := sameDocument_iff.2 parts
  exact ⟨⟨⟨document.version, document.operation, document.asset, document.inputs,
    document.outputs, document.timestamp⟩, document.metadata⟩, document.id⟩

theorem sha256_of_calculateId (same : a.calculateId = b.calculateId) :
    sha256 a.idBytes = sha256 b.idBytes := by
  rw [calculateId_eq, calculateId_eq] at same
  exact Octets.ext (Hex.encode_injective same)

/-- What is signed tells the whole content and the id. One id belongs to one content, or two byte
strings with one hash are found. -/
theorem covered_by_signature (proper : a.Proper) (proper' : b.Proper) :
    (a.signingBytes = b.signingBytes → SameContent a b ∧ a.id = b.id) ∧
    (a.calculateId = b.calculateId →
      SameContent a b ∨ a.idBytes ≠ b.idBytes ∧ sha256 a.idBytes = sha256 b.idBytes) := by
  refine ⟨sameContent_of_signingBytes proper proper', fun same => ?_⟩
  by_cases equal : a.idBytes = b.idBytes
  · left
    exact (sameContent_of_signingBytes (proper.withId "") (proper'.withId "") equal).1.of_withId
  · right
    exact ⟨equal, sha256_of_calculateId same⟩

theorem covered_by_signature_cup :
    SameContent (cup (some .null) (some "cf:0:")) (cup none none) ∧
    (cup (some (.number (.float false ⟨2 ^ 52, -53⟩))) none).signingBytes ≠
      (cup (some (.number (.float true ⟨2 ^ 52, -53⟩))) none).signingBytes := by
  have half : Binary64.Normal ⟨2 ^ 52, -53⟩ := ⟨by decide, by decide, by decide, by decide⟩
  have proper {metadata : Option Json} (fulfillment : Option String)
      (numbers : ∀ value ∈ metadata, value.Numbers Number.Normal) :
      (cup metadata fulfillment).Proper :=
    ⟨⟨trivial, ⟨trivial, trivial, trivial⟩, trivial⟩, numbers, cup_valid metadata fulfillment⟩
  have empty : ∀ value ∈ (none : Option Json), value.Numbers Number.Normal := nofun
  have null : ∀ value ∈ some Json.null, value.Numbers Number.Normal := by
    rintro _ ⟨⟩
    trivial
  have halves (sign : Bool) : ∀ value ∈ some (Json.number (.float sign ⟨2 ^ 52, -53⟩)),
      value.Numbers Number.Normal := by
    rintro _ ⟨⟩
    exact half
  constructor
  · have covered := covered_by_signature (proper (some "cf:0:") null) (proper none empty)
    exact (covered.1 rfl).1
  · intro same
    have covered := covered_by_signature (proper none (halves false)) (proper none (halves true))
    exact absurd (covered.1 same).1.metadata (by decide)

end CryptoConditions.Transaction
