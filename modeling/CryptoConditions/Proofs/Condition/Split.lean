import CryptoConditions.Proofs.Condition.Binary

/-! Bytes in front of the binary form of a condition. Nothing says where the
form starts, but with the total of the two lengths that a prefix declares there
is one place only: the form grows with its size field, and the declared lengths
leave room for a shift of one byte at most, which the type and feature bytes
rule out. -/

namespace CryptoConditions

namespace Wire

theorem byteWidth_le_succ {m n : Nat} (near : n ≤ m + 8) : byteWidth n ≤ byteWidth m + 1 := by
  have below := lt_pow_byteWidth m
  have first : 256 ^ 1 ≤ 256 ^ byteWidth m := Nat.pow_le_pow_right (by decide) (byteWidth_pos m)
  refine byteWidth_le ?_ (Nat.succ_pos _)
  rw [Nat.pow_succ]
  omega

theorem lengthWidth_le_succ {m n : Nat} (near : n ≤ m + 8) :
    lengthWidth n ≤ lengthWidth m + 1 := by
  have widths := byteWidth_le_succ near
  unfold lengthWidth
  split
  · omega
  · split
    · have narrow : byteWidth n ≤ 1 := byteWidth_le (by omega) (by decide)
      omega
    · omega

theorem uintLength_of_lt {n : Nat} (small : n < 128) : uintLength n = 2 := by
  have narrow : byteWidth n ≤ 1 := byteWidth_le (by omega) (by decide)
  have pos := byteWidth_pos n
  have width : byteWidth n = 1 := by omega
  rw [uintLength, width]
  rfl

theorem uint_of_lt {n : Nat} (small : n < 128) : uint n = [1, UInt8.ofNat n] := by
  have narrow : byteWidth n ≤ 1 := byteWidth_le (by omega) (by decide)
  have pos := byteWidth_pos n
  have width : byteWidth n = 1 := by omega
  rw [uint, octets, minimalBigEndian_length, minimalBigEndian, width]
  rfl

end Wire

namespace Condition

theorem binaryLength_eq (c : Condition) : c.binaryLength = 38 + byteWidth c.size.toNat := by
  have width : byteWidth c.size.toNat ≤ 8 := byteWidth_le c.size.toNat_lt (by decide)
  have size : Wire.uintLength c.size.toNat = 1 + byteWidth c.size.toNat := by
    rw [Wire.uintLength, Wire.octetsLength, Wire.lengthWidth, if_pos (by omega)]
  have hash : Wire.octetsLength 32 = 33 := rfl
  rw [binaryLength, Wire.uintLength_of_lt c.features.toNat_lt, size, hash]
  omega

theorem binary_eq_cons (c : Condition) :
    c.binary = 0 :: UInt8.ofNat c.type.id :: 1 :: UInt8.ofNat c.features.toNat ::
      (Wire.octets c.hash.bytes ++ Wire.uint c.size.toNat) := by
  have id : bigEndian 2 c.type.id = [0, UInt8.ofNat c.type.id] := by cases c.type <;> rfl
  rw [binary, id, Wire.uint_of_lt c.features.toNat_lt]
  rfl

theorem binary_ne_cons {c d : Condition} (hc : c.Consistent) (byte : UInt8) :
    c.binary ≠ byte :: d.binary := by
  intro same
  rw [binary_eq_cons, binary_eq_cons, List.cons.injEq, List.cons.injEq, List.cons.injEq,
    List.cons.injEq] at same
  obtain ⟨_, type, _, features, _⟩ := same
  have preimage : c.type = .preimage := by
    cases known : c.type with
    | preimage => rfl
    | _ =>
      rw [known] at type
      cases type
  have shown : c.features = ConditionType.preimage.features := by
    rw [hc.simple (by rw [preimage]; rfl), preimage]
  rw [shown] at features
  cases features

private theorem split_of_le {lead front : Bytes} {c d : Condition} (hc : c.Consistent)
    (hd : d.Consistent)
    (total : Wire.octetsLength lead.length + Wire.octetsLength c.size.toNat =
      Wire.octetsLength front.length + Wire.octetsLength d.size.toNat)
    (same : lead ++ c.binary = front ++ d.binary) (le : lead.length ≤ front.length) :
    lead = front ∧ c = d := by
  have lengths := congrArg List.length same
  rw [List.length_append, List.length_append, binary_length, binary_length, binaryLength_eq,
    binaryLength_eq] at lengths
  have narrow : byteWidth c.size.toNat ≤ 8 := byteWidth_le c.size.toNat_lt (by decide)
  have pos := byteWidth_pos d.size.toNat
  have grown := Wire.lengthWidth_le_succ (show front.length ≤ lead.length + 8 by omega)
  -- The sizes are as far apart as the leads, give or take one byte for the length of a lead.
  have near : c.size.toNat ≤ d.size.toNat + 8 := by
    by_contra far
    have widths := Wire.lengthWidth_mono (show d.size.toNat ≤ c.size.toNat by omega)
    unfold Wire.octetsLength at total
    omega
  have step := Wire.byteWidth_le_succ near
  rcases Nat.lt_or_ge lead.length front.length with shifted | unshifted
  · have one : front.length = lead.length + 1 := by omega
    obtain ⟨mid, rfl, form⟩ : ∃ mid, front = lead ++ mid ∧ c.binary = mid ++ d.binary := by
      rcases List.append_eq_append_iff.1 same with ⟨mid, front_eq, form⟩ | ⟨mid, lead_eq, _⟩
      · exact ⟨mid, front_eq, form⟩
      · rw [lead_eq, List.length_append] at one
        omega
    obtain ⟨byte, rfl⟩ : ∃ byte, mid = [byte] := by
      rw [← List.length_eq_one_iff]
      simpa using one
    exact absurd form (binary_ne_cons hc byte)
  · obtain ⟨leads, forms⟩ := List.append_inj same (by omega)
    have whole : c.binary ++ [] = d.binary ++ [] := by rw [forms]
    exact ⟨leads, (binary_append_inj hc hd whole).1⟩

theorem split {lead front : Bytes} {c d : Condition} (hc : c.Consistent) (hd : d.Consistent)
    (total : Wire.octetsLength lead.length + Wire.octetsLength c.size.toNat =
      Wire.octetsLength front.length + Wire.octetsLength d.size.toNat)
    (same : lead ++ c.binary = front ++ d.binary) : lead = front ∧ c = d := by
  rcases Nat.le_total lead.length front.length with le | le
  · exact split_of_le hc hd total same le
  · obtain ⟨leads, conditions⟩ := split_of_le hd hc total.symm same.symm le
    exact ⟨leads.symm, conditions.symm⟩

end Condition

end CryptoConditions
