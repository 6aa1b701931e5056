import CryptoConditions.Condition.Basic
import CryptoConditions.Proofs.Steps
import CryptoConditions.Proofs.Wire.Exactness

/-! The binary form of a condition is read back, whatever stands behind it, if
the features fit the type; what is read is such a condition in its binary form. -/

namespace CryptoConditions

namespace Features

theorem contains_iff {f g : Features} : f.contains g = true ↔ f.bits &&& g.bits = g.bits := by
  simp [contains]

theorem contains_refl (f : Features) : f.contains f = true := by
  simp [contains_iff]

theorem contains_trans {f g h : Features} (outer : f.contains g = true)
    (inner : g.contains h = true) : f.contains h = true := by
  rw [contains_iff] at *
  rw [← inner, ← BitVec.and_assoc, outer]

theorem contains_union (f g : Features) : (f.union g).contains f = true := by
  rw [contains_iff, union]
  ext i
  simp only [BitVec.getElem_and, BitVec.getElem_or]
  cases f.bits[i] <;> simp

end Features

theorem ConditionType.bytes_injective {s t : ConditionType}
    (same : bigEndian 2 s.id = bigEndian 2 t.id) : s = t := by
  have short (u : ConditionType) : u.id % 256 ^ 2 = u.id := by cases u <;> rfl
  have numbers := congrArg ofBigEndian same
  rw [ofBigEndian_bigEndian, ofBigEndian_bigEndian, short, short] at numbers
  have known := ofId?_id s
  rw [numbers, ofId?_id] at known
  exact (Option.some.inj known).symm

namespace Condition

/-- What a condition of the type may show. -/
structure Consistent (c : Condition) : Prop where
  contains : c.features.contains c.type.features = true
  simple : c.type.isCompound = false → c.features = c.type.features

theorem ofParts_eq_ok {type : ConditionType} {features : Features} {hash : Bytes} {size : UInt64}
    {c : Condition} (ok : ofParts type features hash size = .ok c) :
    c.Consistent ∧ c.type = type ∧ c.features = features ∧ c.hash.bytes = hash ∧ c.size = size := by
  unfold ofParts at ok
  split at ok
  · cases ok
  · next contains =>
    split at ok
    · cases ok
    · next simple =>
      split at ok
      · cases ok
      · next found =>
        cases ok
        exact ⟨⟨by simpa using contains, fun flat => by simpa [flat] using simple⟩, rfl, rfl,
          Octets.bytes_of_ofBytes? found, rfl⟩

theorem ofWire_eq_ok {type features size : Nat} {hash : Bytes} {c : Condition}
    (ok : ofWire type features hash size = .ok c) :
    c.Consistent ∧ c.type.id = type ∧ c.features.toNat = features ∧ c.hash.bytes = hash ∧
      c.size = UInt64.ofNat size := by
  unfold ofWire at ok
  split at ok
  · cases ok
  · next typed =>
    split at ok
    · cases ok
    · next featured =>
      obtain ⟨consistent, rfl, rfl, hash, size⟩ := ofParts_eq_ok ok
      exact ⟨consistent, ConditionType.id_of_ofId? typed, Features.toNat_of_ofNat? featured, hash,
        size⟩

theorem Consistent.ofParts {c : Condition} (h : c.Consistent) :
    ofParts c.type c.features c.hash.bytes c.size = .ok c := by
  have simple : (!c.type.isCompound && c.features != c.type.features) = false := by
    cases flat : c.type.isCompound with
    | true => simp
    | false => simp [h.simple flat]
  rw [Condition.ofParts, h.contains, simple, Octets.ofBytes?_bytes]
  rfl

theorem Consistent.ofWire {c : Condition} (h : c.Consistent) :
    ofWire c.type.id c.features.toNat c.hash.bytes c.size.toNat = .ok c := by
  rw [Condition.ofWire, ConditionType.ofId?_id]
  simp only [Features.ofNat?_toNat, UInt64.ofNat_toNat, h.ofParts]

theorem Consistent.read_append {c : Condition} (h : c.Consistent) (rest : Bytes) :
    read (c.binary ++ rest) = .ok (c, rest) := by
  have id : c.type.id % 256 ^ 2 = c.type.id := by cases c.type <;> rfl
  have features : c.features.toNat < 2 ^ 64 := Nat.lt_trans c.features.toNat_lt (by decide)
  have hash : c.hash.bytes.length < 2 ^ 64 := by rw [c.hash.length_eq]; decide
  rw [read, binary, List.append_assoc, List.append_assoc, List.append_assoc,
    step_bind (Wire.Reader.orThrow_of_ok (Wire.Reader.fixed_bigEndian _ _ _)),
    step_bind (Wire.Reader.orThrow_of_ok (Wire.Reader.uint_uint features _)),
    step_bind (Wire.Reader.orThrow_of_ok (Wire.Reader.octets_octets hash _)),
    step_bind (Wire.Reader.orThrow_of_ok (Wire.Reader.uint_uint c.size.toNat_lt _)),
    id, h.ofWire]
  rfl

theorem Consistent.ofBinary {c : Condition} (h : c.Consistent) : ofBinary c.binary = .ok c := by
  have whole := h.read_append []
  rw [List.append_nil] at whole
  simp only [Condition.ofBinary, whole, bind, Except.bind, Wire.Reader.orThrow,
    Wire.Reader.finish_nil, pure, Except.pure]

theorem read_ok {c : Condition} {bytes rest : Bytes} (ok : read bytes = .ok (c, rest)) :
    bytes = c.binary ++ rest ∧ c.Consistent := by
  simp only [read, step_bind_eq_ok, Wire.Reader.orThrow_eq_ok] at ok
  obtain ⟨type, _, first, features, _, second, hash, _, third, size, _, fourth, made⟩ := ok
  obtain ⟨rfl, _⟩ := Wire.Reader.fixed_ok first
  obtain ⟨rfl, _⟩ := Wire.Reader.uint_ok second
  obtain ⟨rfl, _⟩ := Wire.Reader.octets_ok third
  obtain ⟨rfl, small⟩ := Wire.Reader.uint_ok fourth
  simp only [step_lift_eq_ok] at made
  obtain ⟨made, rfl⟩ := made
  obtain ⟨consistent, rfl, rfl, rfl, sized⟩ := ofWire_eq_ok made
  refine ⟨?_, consistent⟩
  have size_eq : c.size.toNat = size := by
    rw [sized, UInt64.toNat_ofNat']
    exact Nat.mod_eq_of_lt small
  rw [binary, size_eq]
  simp only [List.append_assoc]

theorem ofBinary_ok {c : Condition} {bytes : Bytes} (ok : ofBinary bytes = .ok c) :
    bytes = c.binary ∧ c.Consistent := by
  simp only [ofBinary, bind_eq_ok] at ok
  obtain ⟨⟨d, rest⟩, found, ⟨_, _⟩, ended, same⟩ := ok
  cases same
  obtain ⟨rfl, consistent⟩ := read_ok found
  have empty : rest = [] := Wire.Reader.finish_ok (Wire.Reader.orThrow_eq_ok.1 ended)
  exact ⟨by rw [empty, List.append_nil], consistent⟩

theorem binary_append_inj {c d : Condition} (hc : c.Consistent) (hd : d.Consistent) {r s : Bytes}
    (same : c.binary ++ r = d.binary ++ s) : c = d ∧ r = s := by
  have read := hc.read_append r
  rw [same, hd.read_append s] at read
  simpa [eq_comm] using read

theorem binary_injective {c d : Condition} (same : c.binary = d.binary) : c = d := by
  have small (f : Features) : f.toNat < 2 ^ 64 := Nat.lt_trans f.toNat_lt (by decide)
  have short (h : Octets 32) : h.bytes.length < 2 ^ 64 := by rw [h.length_eq]; decide
  obtain ⟨type, features, hash, size⟩ := c
  obtain ⟨type', features', hash', size'⟩ := d
  simp only [binary, List.append_assoc] at same
  obtain ⟨types, same⟩ := List.append_inj same (by simp)
  obtain ⟨shown, same⟩ := Wire.uint_append_inj (small _) (small _) same
  obtain ⟨hashes, same⟩ := Wire.octets_append_inj (short _) (short _) same
  rw [← List.append_nil (Wire.uint size.toNat), ← List.append_nil (Wire.uint size'.toNat)] at same
  obtain ⟨sizes, _⟩ := Wire.uint_append_inj size.toNat_lt size'.toNat_lt same
  have features_eq := Features.ofNat?_toNat features
  rw [shown, Features.ofNat?_toNat] at features_eq
  rw [ConditionType.bytes_injective types, ← Option.some.inj features_eq, Octets.ext hashes,
    UInt64.toNat_inj.1 sizes]

theorem binary_ne_nil (c : Condition) : c.binary ≠ [] := by
  simp [binary, bigEndian]

end Condition

namespace Weight

theorem toNat_lt (w : Weight) : w.toNat < 2 ^ 32 := w.val.toNat_lt

theorem toNat_injective {v w : Weight} (same : v.toNat = w.toNat) : v = w := by
  obtain ⟨a, _⟩ := v
  obtain ⟨b, _⟩ := w
  have value : a = b := UInt32.toNat_inj.1 same
  subst value
  rfl

theorem ofNat_toNat (w : Weight) : ofNat w.toNat = .ok w := by
  rw [ofNat, if_pos w.toNat_lt, dif_pos (by simpa [toNat] using w.pos)]
  congr 1
  exact toNat_injective (by simp [toNat])

theorem toNat_of_ofNat {n : Nat} {w : Weight} (ok : ofNat n = .ok w) : w.toNat = n := by
  unfold ofNat at ok
  split at ok
  · next small =>
    split at ok
    · cases ok
      exact Nat.mod_eq_of_lt small
    · cases ok
  · cases ok

end Weight

end CryptoConditions
