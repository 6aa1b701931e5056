import CryptoConditions.Fulfillment.Assembly
import CryptoConditions.Proofs.Condition.Binary

/-! Canonical order. It is total and transitive, so putting items in order keeps
every item once, and items in order stay where they are. Only items of equal weight
and condition may change places, so the weights and conditions in order do not
depend on how the items stood before. -/

namespace CryptoConditions

namespace Commitment

/-- What counts of a commitment inside a threshold: not the key to show. -/
def share (c : Commitment) : Weight × Condition :=
  (c.weight, c.condition)

theorem precedes_iff {a b : Commitment} :
    a.precedes b = true ↔ b.weight.val < a.weight.val ∨
      a.weight.val = b.weight.val ∧ a.condition.binary ≤ b.condition.binary := by
  simp [precedes]

theorem precedes_total (a b : Commitment) : (a.precedes b || b.precedes a) = true := by
  rw [Bool.or_eq_true, precedes_iff, precedes_iff]
  rcases Nat.lt_trichotomy a.weight.val.toNat b.weight.val.toNat with less | same | more
  · exact Or.inr (Or.inl (UInt32.lt_iff_toNat_lt.2 less))
  · have weights : a.weight.val = b.weight.val := UInt32.toNat_inj.1 same
    rcases List.le_total a.condition.binary b.condition.binary with le | le
    · exact Or.inl (Or.inr ⟨weights, le⟩)
    · exact Or.inr (Or.inr ⟨weights.symm, le⟩)
  · exact Or.inl (Or.inl (UInt32.lt_iff_toNat_lt.2 more))

theorem precedes_trans (a b c : Commitment) (ab : a.precedes b = true) (bc : b.precedes c = true) :
    a.precedes c = true := by
  rw [precedes_iff, UInt32.lt_iff_toNat_lt, ← UInt32.toNat_inj] at *
  rcases ab with ab | ⟨ab, first⟩
  · exact Or.inl (by omega)
  · rcases bc with bc | ⟨bc, second⟩
    · exact Or.inl (by omega)
    · exact Or.inr ⟨by omega, List.le_trans first second⟩

theorem share_eq_of_precedes {a b : Commitment} (ab : a.precedes b = true)
    (ba : b.precedes a = true) : a.share = b.share := by
  rw [precedes_iff, UInt32.lt_iff_toNat_lt, ← UInt32.toNat_inj] at *
  rcases ab with ab | ⟨weights, first⟩
  · rcases ba with ba | ⟨ba, _⟩ <;> omega
  · rcases ba with ba | ⟨_, second⟩
    · omega
    · have conditions := Condition.binary_injective (List.le_antisymm first second)
      rw [share, share, Weight.toNat_injective weights, conditions]

def sharePrecedes (s t : Weight × Condition) : Prop :=
  precedes ⟨s.2, s.1, none⟩ ⟨t.2, t.1, none⟩ = true

theorem pairwise_share {parts : List Commitment} :
    (parts.map share).Pairwise sharePrecedes ↔
      parts.Pairwise fun a b => a.precedes b = true := List.pairwise_map

theorem sharePrecedes_antisymm {s t : Weight × Condition} (before : sharePrecedes s t)
    (after : sharePrecedes t s) : s = t := share_eq_of_precedes before after

theorem pairwise_precedes_congr {parts others : List Commitment}
    (same : parts.map share = others.map share)
    (sorted : parts.Pairwise fun a b => a.precedes b = true) :
    others.Pairwise fun a b => a.precedes b = true := by
  rw [← pairwise_share] at sorted ⊢
  rwa [← same]

theorem map_share_of_sorted {parts others : List Commitment}
    (perm : (parts.map share).Perm (others.map share))
    (sorted : parts.Pairwise fun a b => a.precedes b = true)
    (sorted' : others.Pairwise fun a b => a.precedes b = true) :
    parts.map share = others.map share :=
  List.Perm.eq_of_pairwise (fun _ _ _ _ => sharePrecedes_antisymm) (pairwise_share.2 sorted)
    (pairwise_share.2 sorted') perm

end Commitment

namespace Threshold

variable {α : Type}

theorem arrange_perm (items : List (Commitment × α)) : (arrange items).Perm items :=
  List.mergeSort_perm items _

theorem arrange_sorted (items : List (Commitment × α)) :
    (arrange items).Pairwise fun a b => a.1.precedes b.1 = true :=
  List.pairwise_mergeSort (fun a b c => Commitment.precedes_trans a.1 b.1 c.1)
    (fun a b => Commitment.precedes_total a.1 b.1) items

theorem arrange_of_sorted {items : List (Commitment × α)}
    (sorted : items.Pairwise fun a b => a.1.precedes b.1 = true) : arrange items = items :=
  List.mergeSort_of_pairwise sorted

theorem arrange_map {β : Type} (f : α → β) (items : List (Commitment × α)) :
    arrange (items.map (Prod.map id f)) = (arrange items).map (Prod.map id f) := by
  rw [arrange, arrange]
  exact (List.map_mergeSort fun _ _ _ _ => by rfl).symm

section Arranged

variable (commit : α → Commitment)

def arranged (items : List α) : List α :=
  (arrange (items.map fun item => (commit item, item))).map Prod.snd

theorem arrange_pairs (items : List α) : arrange (items.map fun item => (commit item, item)) =
    (arranged commit items).map fun item => (commit item, item) := by
  have own : ∀ pair ∈ arrange (items.map fun item => (commit item, item)),
      ((fun item => (commit item, item)) ∘ Prod.snd) pair = id pair := by
    intro pair mem
    obtain ⟨item, _, rfl⟩ := List.mem_map.1 ((arrange_perm _).mem_iff.1 mem)
    rfl
  rw [arranged, List.map_map, List.map_congr_left own, List.map_id]

theorem arranged_perm (items : List α) : (arranged commit items).Perm items := by
  have perm := (arrange_perm (items.map fun item => (commit item, item))).map Prod.snd
  have second : (Prod.snd ∘ fun item => (commit item, item)) = id := rfl
  rwa [List.map_map, second, List.map_id] at perm

theorem arranged_sorted (items : List α) :
    ((arranged commit items).map commit).Pairwise fun a b => a.precedes b = true := by
  have sorted := arrange_sorted (items.map fun item => (commit item, item))
  rw [arrange_pairs] at sorted
  exact List.pairwise_map.2 (List.pairwise_map.1 sorted)

theorem arranged_of_sorted {items : List α}
    (sorted : (items.map commit).Pairwise fun a b => a.precedes b = true) :
    arranged commit items = items := by
  have second : (Prod.snd ∘ fun item => (commit item, item)) = id := rfl
  rw [arranged, arrange_of_sorted (List.pairwise_map.2 (List.pairwise_map.1 sorted)),
    List.map_map, second, List.map_id]

theorem arranged_congr {other : α → Commitment} {items : List α}
    (same : ∀ item ∈ items, commit item = other item) :
    arranged commit items = arranged other items := by
  have pairs : (items.map fun item => (commit item, item)) =
      items.map fun item => (other item, item) :=
    List.map_congr_left fun item mem => by rw [same item mem]
  rw [arranged, arranged, pairs]

theorem arranged_map {β : Type} (f : β → α) (items : List β) :
    arranged commit (items.map f) = (arranged (commit ∘ f) items).map f := by
  have pairs : (items.map f).map (fun item => (commit item, item)) =
      (items.map fun item => (commit (f item), item)).map (Prod.map id f) := by
    rw [List.map_map, List.map_map]
    rfl
  rw [arranged, pairs, arrange_map, arranged, List.map_map, List.map_map]
  rfl

end Arranged

end Threshold

end CryptoConditions
