import CryptoConditions.Proofs.Steps
import CryptoConditions.Proofs.Threshold.Search
import CryptoConditions.Threshold.Condition

/-! The declared size of a threshold. The search for it goes through all choices of entries,
so no choice that reaches the threshold is longer. It knows every sum that the search for
a payload can reach, so where it stays inside the limit on sums the other one does too. -/

namespace CryptoConditions.Threshold

namespace Extent

def chosenLength : List Extent → List Bool → Nat
  | entry :: entries, true :: flags => entry.revealed + chosenLength entries flags
  | entry :: entries, false :: flags => entry.hidden + chosenLength entries flags
  | _, _ => 0

def chosenWeight : List Extent → List Bool → Nat
  | entry :: entries, true :: flags => entry.weight + chosenWeight entries flags
  | _ :: entries, false :: flags => chosenWeight entries flags
  | _, _ => 0

end Extent

section Search

variable {needed : Nat} {buckets next final : Buckets Nat} {entry : Extent} {entries : List Extent}

def grown (needed : Nat) (buckets : Buckets Nat) (entry : Extent) : Buckets Nat :=
  Buckets.merge max (buckets.map (· + entry.hidden))
    (Buckets.raise max needed entry.weight (buckets.map (· + entry.revealed)))

theorem grown_rising (rising : Buckets.Rising buckets) (entry : Extent) :
    Buckets.Rising (grown needed buckets entry) :=
  Buckets.merge_rising (Buckets.map_rising rising)
    (Buckets.raise_rising (Buckets.map_rising rising))

abbrev Reaches (buckets : Buckets Nat) (sum length : Nat) : Prop :=
  Buckets.Covers (fun x y : Nat => y ≤ x) buckets sum length

theorem grown_reaches {weight length : Nat} (reaches : Reaches buckets (min needed weight) length)
    (entry : Extent) :
    Reaches (grown needed buckets entry) (min needed weight) (length + entry.hidden) ∧
      Reaches (grown needed buckets entry) (min needed (weight + entry.weight))
        (length + entry.revealed) := by
  have hidden : Reaches (buckets.map (· + entry.hidden)) (min needed weight)
      (length + entry.hidden) := reaches.map fun _ _ le => Nat.add_le_add_right le _
  have revealed : Reaches (buckets.map (· + entry.revealed)) (min needed weight)
      (length + entry.revealed) := reaches.map fun _ _ le => Nat.add_le_add_right le _
  have raised := revealed.raise Buckets.prefers_max needed entry.weight
  have sum : min needed (min needed weight + entry.weight) =
      min needed (weight + entry.weight) := by omega
  rw [sum] at raised
  exact ⟨hidden.merge_left Buckets.prefers_max, raised.merge_right Buckets.prefers_max⟩

theorem foldl_grown_rising (rising : Buckets.Rising buckets) (entries : List Extent) :
    Buckets.Rising (entries.foldl (grown needed) buckets) := by
  induction entries generalizing buckets with
  | nil => exact rising
  | cons entry entries ih => exact ih (grown_rising rising entry)

theorem foldl_grown_reaches {flags : List Bool} (long : flags.length = entries.length)
    {weight length : Nat} (reaches : Reaches buckets (min needed weight) length) :
    Reaches (entries.foldl (grown needed) buckets)
      (min needed (weight + Extent.chosenWeight entries flags))
      (length + Extent.chosenLength entries flags) := by
  induction entries generalizing buckets flags weight length with
  | nil =>
    simpa only [Extent.chosenWeight, Extent.chosenLength, List.foldl_nil, Nat.add_zero]
      using reaches
  | cons entry entries ih =>
    obtain ⟨flag, flags, rfl⟩ := List.exists_cons_of_length_eq_add_one long
    obtain ⟨hidden, revealed⟩ := grown_reaches reaches entry
    cases flag with
    | false =>
      have rest := ih (Nat.succ.inj long) hidden
      rwa [Nat.add_assoc] at rest
    | true =>
      have rest := ih (Nat.succ.inj long) revealed
      rwa [Nat.add_assoc, Nat.add_assoc] at rest

theorem extend_eq_ok (ok : extend needed buckets entry = .ok next) :
    next = grown needed buckets entry ∧ next.length ≤ maxSums := by
  simp only [extend] at ok
  split at ok
  · cases ok
  · split at ok
    · cases ok
    · next few =>
      cases ok
      exact ⟨rfl, Nat.le_of_not_lt few⟩

theorem foldlM_extend_eq_ok (ok : entries.foldlM (extend needed) buckets = .ok final) :
    final = entries.foldl (grown needed) buckets := by
  induction entries generalizing buckets with
  | nil =>
    cases ok
    rfl
  | cons entry entries ih =>
    rw [List.foldlM_cons] at ok
    obtain ⟨next, extended, ok⟩ := bind_eq_ok.1 ok
    obtain ⟨rfl, _⟩ := extend_eq_ok extended
    exact ih ok

theorem foldlM_extend_rising (ok : entries.foldlM (extend needed) buckets = .ok final)
    (rising : Buckets.Rising buckets) : Buckets.Rising final := by
  rw [foldlM_extend_eq_ok ok]
  exact foldl_grown_rising rising entries

theorem foldlM_extend_reaches (ok : entries.foldlM (extend needed) buckets = .ok final)
    {flags : List Bool} (long : flags.length = entries.length) {weight length : Nat}
    (reaches : Reaches buckets (min needed weight) length) :
    Reaches final (min needed (weight + Extent.chosenWeight entries flags))
      (length + Extent.chosenLength entries flags) := by
  rw [foldlM_extend_eq_ok ok]
  exact foldl_grown_reaches long reaches

theorem reaches_start (needed : Nat) : Reaches [(0, 0)] (min needed 0) 0 :=
  ⟨0, by simp, Nat.le_refl 0⟩

theorem largest?_eq_ok {found : Option Nat} (ok : largest? needed entries = .ok found) :
    ∃ final, entries.foldlM (extend needed) [(0, 0)] = .ok final ∧ found = final.lookup needed := by
  simpa only [largest?, bind_eq_ok, pure_eq_ok] using ok

theorem chosenLength_le {body : Nat} (ok : largest? needed entries = .ok (some body))
    {flags : List Bool} (long : flags.length = entries.length)
    (enough : needed ≤ Extent.chosenWeight entries flags) :
    Extent.chosenLength entries flags ≤ body := by
  obtain ⟨final, folded, found⟩ := largest?_eq_ok ok
  have reaches := foldlM_extend_reaches folded long (reaches_start needed)
  rw [Nat.zero_add, Nat.zero_add] at reaches
  obtain ⟨length, known, le⟩ :=
    reaches.lookup (foldlM_extend_rising folded (List.pairwise_singleton _ _)) enough
  rw [known] at found
  cases found
  exact le

end Search

section Parts

variable {needed : UInt32} {parts : List Commitment} {n : Nat}

/-- The lengths of a part whose payload is as long as its condition lets it be. -/
def fullExtent (part : Commitment) : Extent :=
  ⟨part.weight.toNat, revealedLength part (2 + Wire.octetsLength part.condition.size.toNat),
    hiddenLength part⟩

theorem checkSize_eq_ok {size : Nat} (ok : checkSize size = .ok n) : n = size ∧ size < 2 ^ 64 := by
  unfold checkSize at ok
  split at ok
  · next fits =>
    cases ok
    exact ⟨rfl, fits⟩
  · cases ok

theorem extent_eq_ok {part : Commitment} {entry : Extent} (ok : extent part = .ok entry) :
    entry = fullExtent part := by
  simp only [extent, bind_eq_ok, pure_eq_ok] at ok
  obtain ⟨revealed, checked, rfl⟩ := ok
  obtain ⟨rfl, _⟩ := checkSize_eq_ok checked
  rfl

theorem mapM_extent_eq_ok {entries : List Extent} (ok : parts.mapM extent = .ok entries) :
    entries = parts.map fullExtent := by
  have same : List.Forall₂ (· = ·) (parts.map fullExtent) entries :=
    List.forall₂_map_left_iff.2 ((mapM_eq_ok ok).imp fun _ _ extended =>
      (extent_eq_ok extended).symm)
  rw [List.forall₂_eq_eq_eq] at same
  exact same.symm

theorem size_eq_ok (ok : size needed parts = .ok n) :
    ∃ body, largest? needed.toNat (parts.map fullExtent) = .ok (some body) ∧
      n = headerLength parts.length + body ∧ n < 2 ^ 64 := by
  simp only [size, bind_eq_ok] at ok
  obtain ⟨entries, extended, found, searched, ok⟩ := ok
  obtain rfl := mapM_extent_eq_ok extended
  cases found with
  | none => cases ok
  | some body =>
    obtain ⟨rfl, fits⟩ := checkSize_eq_ok ok
    exact ⟨body, searched, rfl, fits⟩

theorem chosenLength_le_size (ok : size needed parts = .ok n) {flags : List Bool}
    (long : flags.length = parts.length)
    (enough : needed.toNat ≤ Extent.chosenWeight (parts.map fullExtent) flags) :
    headerLength parts.length + Extent.chosenLength (parts.map fullExtent) flags ≤ n := by
  obtain ⟨body, searched, rfl, _⟩ := size_eq_ok ok
  exact Nat.add_le_add_left (chosenLength_le searched (by rw [long, List.length_map]) enough) _

theorem Choice.chosenWeight_eq {shares : List Share} {flags : List Bool} {length weight : Nat}
    (choice : Choice shares flags length weight) :
    flags.length = shares.length ∧
      Extent.chosenWeight (shares.map fun share => fullExtent share.part) flags = weight := by
  induction choice with
  | nil => exact ⟨rfl, rfl⟩
  | hide rest ih => exact ⟨congrArg (· + 1) ih.1, ih.2⟩
  | reveal shown rest ih => exact ⟨congrArg (· + 1) ih.1, congrArg (_ + ·) ih.2⟩

theorem length_plans_le {needed : Nat} {shares : List Share} {final : Buckets Nat}
    (ok : (shares.map fun share => fullExtent share.part).foldlM (extend needed) [(0, 0)] =
      .ok final) : (plans needed shares).length ≤ final.length := by
  refine (plans_rising needed shares).length_le fun bucket inside => ?_
  obtain ⟨weight, choice, same⟩ := plans_planned needed shares bucket inside
  obtain ⟨long, weights⟩ := choice.chosenWeight_eq
  have reaches := foldlM_extend_reaches ok (by rw [long, List.length_map]) (reaches_start needed)
  rw [Nat.zero_add, weights, ← same] at reaches
  obtain ⟨length, mem, _⟩ := reaches
  exact ⟨length, mem⟩

theorem plans_length_le {shares : List Share}
    (ok : size needed (shares.map Share.part) = .ok n) (count : Nat) :
    (plans needed.toNat (shares.take count)).length ≤ maxSums := by
  obtain ⟨body, searched, _⟩ := size_eq_ok ok
  obtain ⟨final, folded, _⟩ := largest?_eq_ok searched
  rw [List.map_map, ← List.take_append_drop count (List.map _ shares), List.foldlM_append] at folded
  obtain ⟨mid, first, _⟩ := bind_eq_ok.1 folded
  have extents : (shares.map (fullExtent ∘ Share.part)).take count =
      (shares.take count).map fun share => fullExtent share.part := List.map_take.symm
  rw [extents] at first
  have few : mid.length ≤ maxSums :=
    foldlM_invariant (P := fun buckets => buckets.length ≤ maxSums)
      (fun extended _ => (extend_eq_ok extended).2) first (by decide)
  exact Nat.le_trans (length_plans_le first) few

end Parts

end CryptoConditions.Threshold
