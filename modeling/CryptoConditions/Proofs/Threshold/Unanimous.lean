import CryptoConditions.Proofs.Threshold.Search

/-! Thresholds that need all of their parts. Where every part counts one and their number is
needed, no choice but that of all parts suffices, so it is the one that is selected, if its
payload may be as long. -/

namespace CryptoConditions.Threshold

variable {shares : List Share} {flags : List Bool} {length weight : Nat}

theorem Choice.length_unique (choice : Choice shares flags length weight) {more sum : Nat}
    (other : Choice shares flags more sum) : more = length := by
  induction choice generalizing more sum with
  | nil =>
    cases other
    rfl
  | hide _ ih =>
    cases other with
    | hide rest => rw [ih rest]
  | reveal shown _ ih =>
    cases other with
    | reveal shown' rest =>
      rw [shown] at shown'
      cases shown'
      rw [ih rest]

theorem Choice.all_of_ones (ones : ∀ share ∈ shares, share.part.weight.toNat = 1)
    (choice : Choice shares flags length weight) :
    weight ≤ shares.length ∧
      (weight = shares.length → flags = List.replicate shares.length true) := by
  induction choice with
  | nil => exact ⟨Nat.le_refl 0, fun _ => rfl⟩
  | hide rest ih =>
    rw [List.forall_mem_cons] at ones
    have below := (ih ones.2).1
    rw [List.length_cons]
    exact ⟨by omega, fun same => by omega⟩
  | reveal _ rest ih =>
    rw [List.forall_mem_cons] at ones
    obtain ⟨below, all⟩ := ih ones.2
    rw [List.length_cons, ones.1]
    refine ⟨by omega, fun same => ?_⟩
    rw [all (by omega), List.replicate_succ]

theorem select_all {needed : UInt32} (ones : ∀ share ∈ shares, share.part.weight.toNat = 1)
    (all : needed.toNat = shares.length)
    (choice : Choice shares (List.replicate shares.length true) length shares.length) :
    select needed shares = if maxPayload < headerLength shares.length + length
      then .tooLarge (headerLength shares.length + length)
      else .revealed (List.replicate shares.length true) := by
  rcases select_cases needed shares with
    ⟨_, short⟩ | ⟨found, least, weight, other, enough, _, selected⟩
  · have less := short _ _ _ choice
    omega
  · obtain ⟨below, every⟩ := other.all_of_ones ones
    obtain rfl := every (by omega)
    obtain rfl := other.length_unique choice
    exact selected

end CryptoConditions.Threshold
