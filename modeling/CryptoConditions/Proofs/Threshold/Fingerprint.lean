import CryptoConditions.Proofs.Condition.Binary
import CryptoConditions.Proofs.Threshold.Order

/-! The condition of a threshold depends on the weights and conditions of its
parts alone, and the bytes that its hash is taken of tell all of them. -/

namespace CryptoConditions.Threshold

private def bare (c : Commitment) : Commitment :=
  ⟨c.condition, c.weight, none⟩

private theorem condition_bare (needed : UInt32) (parts : List Commitment) :
    condition needed (parts.map bare) = condition needed parts := by
  have extents : (parts.map bare).mapM extent = parts.mapM extent := by
    rw [List.mapM_map]
    rfl
  have weights : totalWeight (parts.map bare) = totalWeight parts := by
    simp only [totalWeight, List.map_map]
    rfl
  have shown : features (parts.map bare) = features parts := by
    simp only [features, List.foldl_map]
    rfl
  have bytes : fingerprint needed (parts.map bare) = fingerprint needed parts := by
    simp only [fingerprint, List.length_map, List.flatMap_map]
    rfl
  simp only [condition, size, extents, weights, shown, bytes, List.length_map]

theorem condition_congr (needed : UInt32) {parts others : List Commitment}
    (same : parts.map Commitment.share = others.map Commitment.share) :
    condition needed parts = condition needed others := by
  have bares (list : List Commitment) :
      list.map bare = (list.map Commitment.share).map fun s => ⟨s.2, s.1, none⟩ := by
    rw [List.map_map]
    rfl
  rw [← condition_bare, ← condition_bare needed others, bares, same, ← bares]

theorem features_contains (parts : List Commitment) :
    (features parts).contains ConditionType.threshold.features = true := by
  have grows (start : Features) :
      (parts.foldl (fun found part => found.union part.condition.features) start).contains start =
        true := by
    induction parts generalizing start with
    | nil => exact Features.contains_refl start
    | cons part rest ih =>
      exact Features.contains_trans (ih _) (Features.contains_union _ _)
  exact grows _

theorem condition_eq_ok {needed : UInt32} {parts : List Commitment} {c : Condition}
    (ok : condition needed parts = .ok c) :
    c.Consistent ∧ c.type = .threshold ∧ c.hash = sha256 (fingerprint needed parts) := by
  unfold condition at ok
  cases sized : size needed parts with
  | error e => simp [sized, bind, Except.bind] at ok
  | ok n =>
    simp only [sized, bind, Except.bind, pure, Except.pure, Except.ok.injEq] at ok
    subst ok
    exact ⟨⟨features_contains parts, fun flat => by cases flat⟩, rfl, rfl⟩

theorem size_of_condition {needed : UInt32} {parts : List Commitment} {c : Condition}
    (ok : condition needed parts = .ok c) :
    ∃ n, size needed parts = .ok n ∧ c.size = UInt64.ofNat n := by
  simp only [condition, bind_eq_ok, pure_eq_ok] at ok
  obtain ⟨n, sized, rfl⟩ := ok
  exact ⟨n, sized, rfl⟩

private theorem entries_append_inj {parts others : List Commitment}
    (long : parts.length = others.length)
    (left : ∀ part ∈ parts, part.condition.Consistent)
    (right : ∀ part ∈ others, part.condition.Consistent)
    (same : (parts.flatMap fun part => Wire.uint part.weight.toNat ++ part.condition.binary) =
      others.flatMap fun part => Wire.uint part.weight.toNat ++ part.condition.binary) :
    parts.map Commitment.share = others.map Commitment.share := by
  induction parts generalizing others with
  | nil =>
    rw [List.eq_nil_of_length_eq_zero long.symm]
  | cons part rest ih =>
    obtain ⟨other, more, rfl⟩ := List.exists_cons_of_length_eq_add_one long.symm
    simp only [List.length_cons, Nat.add_right_cancel_iff, List.forall_mem_cons,
      List.flatMap_cons, List.append_assoc] at long left right same
    have bound (w : Weight) : w.toNat < 2 ^ 64 := Nat.lt_trans w.toNat_lt (by decide)
    obtain ⟨weights, same⟩ := Wire.uint_append_inj (bound _) (bound _) same
    obtain ⟨conditions, same⟩ := Condition.binary_append_inj left.1 right.1 same
    simp only [List.map_cons, Commitment.share, Weight.toNat_injective weights, conditions]
    exact congrArg _ (ih long left.2 right.2 same)

theorem header_append_inj {needed other : UInt32} {m n : Nat} {r s : Bytes} (small : m < 2 ^ 64)
    (small' : n < 2 ^ 64) (same : header needed m ++ r = header other n ++ s) :
    needed = other ∧ m = n ∧ r = s := by
  unfold header at same
  rw [List.append_assoc, List.append_assoc] at same
  obtain ⟨numbers, same⟩ := List.append_inj same (by simp)
  obtain ⟨counts, rest⟩ := Wire.uint_append_inj small small' same
  have value := congrArg ofBigEndian numbers
  rw [ofBigEndian_bigEndian, ofBigEndian_bigEndian,
    Nat.mod_eq_of_lt (show needed.toNat < 256 ^ 4 from needed.toNat_lt),
    Nat.mod_eq_of_lt (show other.toNat < 256 ^ 4 from other.toNat_lt)] at value
  exact ⟨UInt32.toNat_inj.1 value, counts, rest⟩

theorem fingerprint_inj {needed other : UInt32} {parts others : List Commitment}
    (few : parts.length < 2 ^ 64) (few' : others.length < 2 ^ 64)
    (left : ∀ part ∈ parts, part.condition.Consistent)
    (right : ∀ part ∈ others, part.condition.Consistent)
    (same : fingerprint needed parts = fingerprint other others) :
    needed = other ∧ parts.map Commitment.share = others.map Commitment.share := by
  obtain ⟨numbers, long, same⟩ := header_append_inj few few' same
  exact ⟨numbers, entries_append_inj long left right same⟩

end CryptoConditions.Threshold
