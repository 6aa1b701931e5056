import CryptoConditions.Proofs.Fulfillment.Invariant
import CryptoConditions.Proofs.Wire.Uri

/-! The two forms of a condition. Whatever condition comes about, given by its parts, read, or of
a fulfillment at whatever level, is read back from its binary form and from its URI; and nothing
else than these is read as the condition. -/

namespace CryptoConditions.Condition

theorem Consistent.ofUri {c : Condition} (h : c.Consistent) : ofUri c.uri = .ok c := by
  have type : c.uriParts.type < 2 ^ 16 := by
    simp only [uriParts]
    cases c.type <;> decide
  have features : c.uriParts.features < 2 ^ 64 := Nat.lt_trans c.features.toNat_lt (by decide)
  rw [Condition.ofUri, uri, Uri.parseCondition_format ⟨type, features, c.size.toNat_lt⟩]
  exact h.ofWire

theorem ofUri_ok {c : Condition} {text : String} (ok : ofUri text = .ok c) :
    text = c.uri ∧ c.Consistent := by
  unfold ofUri at ok
  split at ok
  · cases ok
  · next parsed =>
    obtain ⟨rfl, fit⟩ := Uri.parseCondition_ok parsed
    obtain ⟨consistent, type, features, hash, size⟩ := ofWire_eq_ok ok
    refine ⟨?_, consistent⟩
    have sized : c.size.toNat = UInt64.toNat (.ofNat _) := congrArg UInt64.toNat size
    rw [UInt64.toNat_ofNat', Nat.mod_eq_of_lt fit.size] at sized
    rw [uri, uriParts, type, features, hash, sized]

/-- A condition that comes about: from its parts, from one of its forms, or with a fulfillment. -/
inductive Obtained : Condition → Prop where
  | parts {type : ConditionType} {features : Features} {hash : Bytes} {size : UInt64}
      {c : Condition} (made : ofParts type features hash size = .ok c) : Obtained c
  | binary {bytes : Bytes} {c : Condition} (read : ofBinary bytes = .ok c) : Obtained c
  | uri {text : String} {c : Condition} (read : ofUri text = .ok c) : Obtained c
  | fulfillment {f g : Fulfillment} {depth : Nat} (obtained : f.Obtained)
      (nests : f.Nests depth g) : Obtained g.condition

theorem Obtained.consistent {c : Condition} (h : c.Obtained) : c.Consistent := by
  cases h with
  | parts made => exact (ofParts_eq_ok made).1
  | binary read => exact (ofBinary_ok read).2
  | uri read => exact (ofUri_ok read).2
  | fulfillment obtained nests => exact (nests.wellFormed obtained.wellFormed).condition.1

/-- A condition that comes about has one binary form, of the length that is told beforehand, and
one URI. -/
theorem forms_of_obtained :
    (∀ c : Condition, c.Obtained →
      ofBinary c.binary = .ok c ∧ ofUri c.uri = .ok c ∧ c.binary.length = c.binaryLength) ∧
    (∀ bytes c, ofBinary bytes = .ok c → c.binary = bytes) ∧
    ∀ text c, ofUri text = .ok c → c.uri = text := by
  refine ⟨fun c obtained => ?_, fun bytes c read => ?_, fun text c read => ?_⟩
  · have consistent := obtained.consistent
    exact ⟨consistent.ofBinary, consistent.ofUri, c.binary_length⟩
  · exact (ofBinary_ok read).1.symm
  · exact (ofUri_ok read).1.symm

section Samples

open Fulfillment

def zeroKeyCondition : Condition :=
  ⟨.ed25519, Features.ed25519, ⟨List.replicate 32 0, rfl⟩, 96⟩

def zeroKeyBinary : Bytes :=
  [0, 4, 1, 32, 32] ++ List.replicate 32 0 ++ [1, 96]

def zeroKeyUri : String := "cc:4:20:AAAAAAAAAAAAAAAAAAAAAAAAAAAAAAAAAAAAAAAAAAA:96"

theorem ofBinary_zeroKey : ofBinary zeroKeyBinary = .ok zeroKeyCondition := by
  decide +kernel

theorem ofUri_zeroKey : ofUri zeroKeyUri = .ok zeroKeyCondition := by
  decide +kernel

theorem forms_of_obtained_samples :
    (∃ c : Condition, c.Obtained ∧ c.type = .threshold ∧
      ofBinary c.binary = .ok c ∧ ofUri c.uri = .ok c ∧ c.binary.length = c.binaryLength) ∧
    zeroKeyCondition.binary = zeroKeyBinary ∧ zeroKeyCondition.uri = zeroKeyUri := by
  obtain ⟨c, made⟩ := ofThreshold_sampleParts
  have whole : (threshold Weight.one 2 sampleParts (.revealed [true, false]) c).Obtained :=
    Built.threshold built_sampleParts made
  have obtained : c.Obtained := .fulfillment whole (.root _)
  obtain ⟨read, binary, uri⟩ := forms_of_obtained
  exact ⟨⟨c, obtained, whole.wellFormed.condition.2, read c obtained⟩,
    binary _ _ ofBinary_zeroKey, uri _ _ ofUri_zeroKey⟩

end Samples

end CryptoConditions.Condition
