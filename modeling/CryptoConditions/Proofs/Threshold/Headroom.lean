import CryptoConditions.Proofs.Condition.Split
import CryptoConditions.Proofs.Threshold.Sums

/-! Room for the size of a threshold. While the greatest lengths of all entries together fit 64
bits, no length that the search for the size adds up can overflow; and a search whose sums are
few finds a size wherever the weights suffice. -/

namespace CryptoConditions

/-- No overflow, and a value only if it has a property. -/
structure Yields {α : Type} (holds : α → Prop) (result : Except ConditionError α) : Prop where
  ne_overflow : result ≠ .error .sizeOverflow
  of_ok : ∀ a, result = .ok a → holds a

namespace Yields

variable {α β : Type} {P : α → Prop} {Q : β → Prop}

theorem ok {a : α} (holds : P a) : Yields P (.ok a) where
  ne_overflow := by simp
  of_ok _ same := Except.ok.inj same ▸ holds

theorem error {e : ConditionError} (other : e ≠ .sizeOverflow) : Yields P (.error e) where
  ne_overflow same := other (Except.error.inj same)
  of_ok := by simp

theorem bind {x : Except ConditionError α} {next : α → Except ConditionError β}
    (first : Yields P x) (rest : ∀ a, P a → Yields Q (next a)) : Yields Q (x >>= next) := by
  cases x with
  | error e => exact error fun same => first.ne_overflow (congrArg _ same)
  | ok a => exact rest a (first.of_ok a rfl)

end Yields

namespace Wire

theorem lengthWidth_le {n : Nat} (small : n < 2 ^ 72) : lengthWidth n ≤ 10 := by
  have width : byteWidth n ≤ 9 := byteWidth_le small (by decide)
  unfold lengthWidth
  split <;> omega

theorem uintLength_le {n : Nat} (small : n < 2 ^ 32) : uintLength n ≤ 5 := by
  have width : byteWidth n ≤ 4 := byteWidth_le small (by decide)
  have narrow : lengthWidth (byteWidth n) = 1 := if_pos (by omega)
  unfold uintLength octetsLength
  omega

end Wire

namespace Threshold

namespace Extent

def most (entry : Extent) : Nat :=
  max entry.revealed entry.hidden

end Extent

section Search

variable {needed bound : Nat} {buckets final : Buckets Nat} {entry : Extent}
  {entries : List Extent}

def Under (needed bound sum length : Nat) : Prop :=
  sum ≤ needed ∧ length ≤ bound

theorem Under.max {sum x y : Nat} (left : Under needed bound sum x)
    (right : Under needed bound sum y) : Under needed bound sum (max x y) :=
  ⟨left.1, Nat.max_le.2 ⟨left.2, right.2⟩⟩

def Within (needed bound : Nat) (buckets : Buckets Nat) : Prop :=
  ∀ bucket ∈ buckets, bucket.1 ≤ needed ∧ bucket.2 ≤ bound

theorem grown_within (within : Within needed bound buckets) (entry : Extent) :
    Within needed (bound + entry.most) (grown needed buckets entry) := by
  have closed : ∀ sum x y, Under needed (bound + entry.most) sum x →
      Under needed (bound + entry.most) sum y → Under needed (bound + entry.most) sum (max x y) :=
    fun _ _ _ => Under.max
  have moved (n : Nat) (le : n ≤ entry.most) :
      ∀ b ∈ Buckets.map (· + n) buckets, Under needed (bound + entry.most) b.1 b.2 := by
    intro b mem
    obtain ⟨old, inside, rfl⟩ := List.mem_map.1 mem
    exact ⟨(within old inside).1, Nat.add_le_add (within old inside).2 le⟩
  refine Buckets.forall_merge closed (moved _ (Nat.le_max_right _ _)) ?_
  exact Buckets.forall_raise closed (fun _ _ kept low => ⟨Nat.le_of_lt low, kept.2⟩)
    (fun _ _ kept _ => ⟨Nat.le_refl _, kept.2⟩) (moved _ (Nat.le_max_left _ _))

theorem extend_of_within (within : Within needed bound buckets)
    (fits : bound + entry.most < 2 ^ 64) :
    extend needed buckets entry = if maxSums < (grown needed buckets entry).length
      then .error (.fulfillment (.tooManySums maxSums)) else .ok (grown needed buckets entry) := by
  have small : (grown needed buckets entry).any (fun bucket => 2 ^ 64 ≤ bucket.2) = false := by
    rw [List.any_eq_false]
    intro bucket mem
    have le := (grown_within within entry bucket mem).2
    simp only [decide_eq_true_eq]
    omega
  rw [extend, ← grown, small]
  rfl

theorem foldlM_extend_within (within : Within needed bound buckets)
    (fits : bound + (entries.map Extent.most).sum < 2 ^ 64) :
    Yields (Within needed (bound + (entries.map Extent.most).sum))
      (entries.foldlM (extend needed) buckets) := by
  induction entries generalizing bound buckets with
  | nil => exact .ok within
  | cons entry entries ih =>
    rw [List.map_cons, List.sum_cons, ← Nat.add_assoc] at fits
    rw [List.map_cons, List.sum_cons, ← Nat.add_assoc, List.foldlM_cons,
      extend_of_within within (by omega)]
    split
    · exact .error (by simp)
    · exact ih (grown_within within entry) fits

theorem within_start (needed : Nat) : Within needed 0 [(0, 0)] := by
  intro bucket mem
  obtain rfl := List.mem_singleton.1 mem
  exact ⟨Nat.zero_le _, Nat.le_refl 0⟩

theorem largest?_within (fits : (entries.map Extent.most).sum < 2 ^ 64) :
    Yields (fun found => ∀ body, found = some body → body ≤ (entries.map Extent.most).sum)
      (largest? needed entries) := by
  rw [← Nat.zero_add (List.sum _)] at fits ⊢
  refine (foldlM_extend_within (within_start needed) fits).bind fun final within => .ok ?_
  intro body found
  exact (within _ (Buckets.mem_of_lookup found)).2

theorem largest?_of_few (fits : (entries.map Extent.most).sum < 2 ^ 64) (few : needed < maxSums)
    (enough : needed ≤ (entries.map Extent.weight).sum) :
    ∃ body, largest? needed entries = .ok (some body) := by
  have sums := card_cappedSums_le needed (entries.map Extent.weight)
  have quiet : largest? needed entries ≠ .error .sizeOverflow := (largest?_within fits).ne_overflow
  have searched := largest?_eq quiet
  rw [if_neg (by omega)] at searched
  cases found : (greatest needed entries).lookup needed with
  | none =>
    have short := lookup_greatest_eq_none.1 found
    omega
  | some body => exact ⟨body, by rw [searched, found]⟩

theorem exists_most (entries : List Extent) : ∃ flags, flags.length = entries.length ∧
    Extent.chosenLength entries flags = (entries.map Extent.most).sum := by
  induction entries with
  | nil => exact ⟨[], rfl, rfl⟩
  | cons entry entries ih =>
    obtain ⟨flags, long, same⟩ := ih
    rw [List.map_cons, List.sum_cons]
    rcases Nat.le_total entry.hidden entry.revealed with le | le
    · refine ⟨true :: flags, congrArg (· + 1) long, ?_⟩
      rw [Extent.chosenLength, same, Extent.most, Nat.max_eq_left le]
    · refine ⟨false :: flags, congrArg (· + 1) long, ?_⟩
      rw [Extent.chosenLength, same, Extent.most, Nat.max_eq_right le]

theorem largest?_ne_overflow (needed : Nat) (fits : ∀ flags, flags.length = entries.length →
    Extent.chosenLength entries flags < 2 ^ 64) :
    largest? needed entries ≠ .error .sizeOverflow := by
  obtain ⟨flags, long, most⟩ := exists_most entries
  exact (largest?_within (by rw [← most]; exact fits flags long)).ne_overflow

end Search

section Parts

variable {needed : UInt32} {parts : List Commitment}

def room (parts : List Commitment) : Nat :=
  headerLength parts.length + ((parts.map fullExtent).map Extent.most).sum

theorem most_fullExtent_le (part : Commitment) :
    (fullExtent part).most ≤ part.condition.size.toNat + 64 := by
  have size := part.condition.size.toNat_lt
  have weight := Wire.uintLength_le part.weight.toNat_lt
  have inner := Wire.lengthWidth_le (show part.condition.size.toNat < 2 ^ 72 by omega)
  have outer : Wire.lengthWidth (2 + Wire.octetsLength part.condition.size.toNat) ≤ 10 := by
    refine Wire.lengthWidth_le ?_
    unfold Wire.octetsLength
    omega
  have binary : part.condition.binaryLength ≤ 46 := by
    have width : byteWidth part.condition.size.toNat ≤ 8 := byteWidth_le size (by decide)
    rw [Condition.binaryLength_eq]
    omega
  have narrow : Wire.lengthWidth part.condition.binaryLength = 1 := if_pos (by omega)
  refine Nat.max_le.2 ⟨?_, ?_⟩
  · change revealedLength part (2 + Wire.octetsLength part.condition.size.toNat) ≤ _
    unfold Wire.octetsLength at outer
    unfold revealedLength Wire.octetsLength
    omega
  · change hiddenLength part ≤ _
    unfold hiddenLength Wire.octetsLength
    omega

theorem checkSize_of_lt {size : Nat} (fits : size < 2 ^ 64) : checkSize size = .ok size :=
  if_pos fits

theorem mapM_extent_of_lt (fits : ((parts.map fullExtent).map Extent.most).sum < 2 ^ 64) :
    parts.mapM extent = .ok (parts.map fullExtent) := by
  induction parts with
  | nil => rfl
  | cons part parts ih =>
    rw [List.map_cons, List.map_cons, List.sum_cons] at fits
    have le : (fullExtent part).revealed ≤ (fullExtent part).most := Nat.le_max_left _ _
    have checked : checkSize (revealedLength part
        (2 + Wire.octetsLength part.condition.size.toNat)) = .ok (fullExtent part).revealed :=
      checkSize_of_lt (Nat.lt_of_le_of_lt le (by omega))
    have first : extent part = .ok (fullExtent part) := by
      rw [extent, bind_of_ok checked]
      rfl
    rw [List.mapM_cons, bind_of_ok first, bind_of_ok (ih (by omega))]
    rfl

theorem size_of_room (fits : room parts < 2 ^ 64) :
    Yields (· ≤ room parts) (size needed parts) := by
  unfold room at fits
  rw [size, bind_of_ok (mapM_extent_of_lt (by omega))]
  refine (largest?_within (by omega)).bind fun found most => ?_
  cases found with
  | none => exact .error (by simp)
  | some body =>
    have le := most body rfl
    dsimp only
    rw [checkSize_of_lt (by omega)]
    exact .ok (Nat.add_le_add_left le _)

theorem condition_of_room (fits : room parts < 2 ^ 64) :
    Yields (fun c => c.size.toNat ≤ room parts) (condition needed parts) := by
  refine (size_of_room fits).bind fun n le => .ok ?_
  dsimp only
  rw [UInt64.toNat_ofNat', Nat.mod_eq_of_lt (by omega)]
  exact le

theorem condition_of_few (fits : room parts < 2 ^ 64) (few : needed.toNat < maxSums)
    (enough : needed.toNat ≤ totalWeight parts) : ∃ c, condition needed parts = .ok c := by
  unfold room at fits
  have sum : ((parts.map fullExtent).map Extent.most).sum < 2 ^ 64 := by omega
  have weights : ((parts.map fullExtent).map Extent.weight).sum = totalWeight parts := by
    rw [List.map_map]
    rfl
  obtain ⟨body, searched⟩ := largest?_of_few sum few (by rw [weights]; exact enough)
  have sized : ∃ n, size needed parts = .ok n := by
    have le := (largest?_within sum).of_ok _ searched body rfl
    rw [size, bind_of_ok (mapM_extent_of_lt sum), bind_of_ok searched]
    exact ⟨_, checkSize_of_lt (by omega)⟩
  obtain ⟨n, sized⟩ := sized
  exact ⟨_, by rw [condition, bind_of_ok sized]; rfl⟩

end Parts

end Threshold

end CryptoConditions
