import CryptoConditions.Proofs.Threshold.Size
import Mathlib.Data.List.Sublists
import Mathlib.Order.Bounds.Basic

/-! Exactness of the search for the greatest length. Its buckets are the sums that choices of
entries come to, one for each, and what stands beside a sum is the length of such a choice that
is not exceeded. So their number is a number of sums over all subsets of the weights, whatever
the order of the entries, and it only grows from entry to entry: the limit is exceeded on the
way if it is at the end. -/

namespace CryptoConditions.Threshold

/-- All sums of some of the weights, up to the weight needed. -/
def cappedSums (needed : Nat) (weights : List Nat) : Finset Nat :=
  (weights.sublists.map fun chosen => min needed chosen.sum).toFinset

section Weights

variable {needed sum : Nat} {weights others : List Nat}

theorem mem_cappedSums : sum ∈ cappedSums needed weights ↔
    ∃ chosen : List Nat, chosen.Sublist weights ∧ min needed chosen.sum = sum := by
  simp only [cappedSums, List.mem_toFinset, List.mem_map, List.mem_sublists]

theorem cappedSums_perm (perm : weights.Perm others) :
    cappedSums needed weights = cappedSums needed others := by
  have carried {xs ys : List Nat} (perm : xs.Perm ys) :
      cappedSums needed xs ⊆ cappedSums needed ys := by
    intro sum mem
    obtain ⟨chosen, inside, rfl⟩ := mem_cappedSums.1 mem
    obtain ⟨moved, same, inside⟩ := List.exists_perm_sublist inside perm
    exact mem_cappedSums.2 ⟨moved, inside, by rw [same.sum_nat]⟩
  exact Finset.Subset.antisymm (carried perm) (carried perm.symm)

theorem cappedSums_mono (part : weights.Sublist others) :
    cappedSums needed weights ⊆ cappedSums needed others := by
  intro sum mem
  obtain ⟨chosen, inside, rfl⟩ := mem_cappedSums.1 mem
  exact mem_cappedSums.2 ⟨chosen, inside.trans part, rfl⟩

theorem card_cappedSums_le (needed : Nat) (weights : List Nat) :
    (cappedSums needed weights).card ≤ needed + 1 := by
  have known : cappedSums needed weights ⊆ Finset.range (needed + 1) := by
    intro sum mem
    obtain ⟨chosen, _, rfl⟩ := mem_cappedSums.1 mem
    exact Finset.mem_range.2 (Nat.lt_succ_of_le (Nat.min_le_left _ _))
  exact (Finset.card_le_card known).trans_eq (Finset.card_range _)

end Weights

def Assigned (entries : List Extent) (weight length : Nat) : Prop :=
  ∃ flags, flags.length = entries.length ∧ Extent.chosenWeight entries flags = weight ∧
    Extent.chosenLength entries flags = length

namespace Assigned

variable {entry : Extent} {entries others : List Extent} {weight length : Nat}

theorem nil_iff : Assigned [] weight length ↔ weight = 0 ∧ length = 0 := by
  constructor
  · rintro ⟨flags, _, rfl, rfl⟩
    exact ⟨rfl, rfl⟩
  · rintro ⟨rfl, rfl⟩
    exact ⟨[], rfl, rfl, rfl⟩

theorem cons_iff : Assigned (entry :: entries) weight length ↔
    ∃ sum total, Assigned entries sum total ∧
      (weight = sum ∧ length = entry.hidden + total ∨
        weight = entry.weight + sum ∧ length = entry.revealed + total) := by
  constructor
  · rintro ⟨flags, long, rfl, rfl⟩
    obtain ⟨flag, flags, rfl⟩ := List.exists_cons_of_length_eq_add_one long
    refine ⟨_, _, ⟨flags, Nat.succ.inj long, rfl, rfl⟩, ?_⟩
    cases flag with
    | false => exact Or.inl ⟨rfl, rfl⟩
    | true => exact Or.inr ⟨rfl, rfl⟩
  · rintro ⟨_, _, ⟨flags, long, rfl, rfl⟩, ⟨rfl, rfl⟩ | ⟨rfl, rfl⟩⟩
    · exact ⟨false :: flags, congrArg (· + 1) long, rfl, rfl⟩
    · exact ⟨true :: flags, congrArg (· + 1) long, rfl, rfl⟩

theorem perm (perm : entries.Perm others) (assigned : Assigned entries weight length) :
    Assigned others weight length := by
  induction perm generalizing weight length with
  | nil => exact assigned
  | cons entry _ ih =>
    obtain ⟨sum, total, rest, here⟩ := cons_iff.1 assigned
    exact cons_iff.2 ⟨sum, total, ih rest, here⟩
  | swap first second entries =>
    obtain ⟨_, _, assigned, here⟩ := cons_iff.1 assigned
    obtain ⟨sum, total, rest, there⟩ := cons_iff.1 assigned
    -- What both of them add, they add in either order.
    rcases here with ⟨rfl, rfl⟩ | ⟨rfl, rfl⟩
    · exact cons_iff.2 ⟨_, _, cons_iff.2 ⟨sum, total, rest, Or.inl ⟨rfl, rfl⟩⟩, by omega⟩
    · exact cons_iff.2 ⟨_, _, cons_iff.2 ⟨sum, total, rest, Or.inr ⟨rfl, rfl⟩⟩, by omega⟩
  | trans _ _ first second => exact second (first assigned)

theorem snoc_hidden (assigned : Assigned entries weight length) (entry : Extent) :
    Assigned (entries ++ [entry]) weight (length + entry.hidden) := by
  refine (cons_iff.2 ⟨_, _, assigned, Or.inl ⟨rfl, Nat.add_comm _ _⟩⟩).perm ?_
  exact (List.perm_append_singleton entry entries).symm

theorem snoc_revealed (assigned : Assigned entries weight length) (entry : Extent) :
    Assigned (entries ++ [entry]) (weight + entry.weight) (length + entry.revealed) := by
  refine (cons_iff.2 ⟨_, _, assigned, Or.inr ⟨Nat.add_comm _ _, Nat.add_comm _ _⟩⟩).perm ?_
  exact (List.perm_append_singleton entry entries).symm

theorem weight_le (assigned : Assigned entries weight length) :
    weight ≤ (entries.map Extent.weight).sum := by
  induction entries generalizing weight length with
  | nil => exact Nat.le_of_eq (nil_iff.1 assigned).1
  | cons entry entries ih =>
    obtain ⟨sum, total, rest, here⟩ := cons_iff.1 assigned
    have le := ih rest
    rw [List.map_cons, List.sum_cons]
    rcases here with ⟨rfl, _⟩ | ⟨rfl, _⟩ <;> omega

theorem of_sublist {chosen : List Nat} (inside : chosen.Sublist (entries.map Extent.weight)) :
    ∃ length, Assigned entries chosen.sum length := by
  induction entries generalizing chosen with
  | nil =>
    rw [List.map_nil, List.sublist_nil] at inside
    subst inside
    exact ⟨0, nil_iff.2 ⟨rfl, rfl⟩⟩
  | cons entry entries ih =>
    rw [List.map_cons] at inside
    cases inside with
    | cons _ inside =>
      obtain ⟨length, rest⟩ := ih inside
      exact ⟨_, cons_iff.2 ⟨_, length, rest, Or.inl ⟨rfl, rfl⟩⟩⟩
    | cons_cons _ inside =>
      obtain ⟨length, rest⟩ := ih inside
      exact ⟨_, cons_iff.2 ⟨_, length, rest, Or.inr ⟨List.sum_cons, rfl⟩⟩⟩

theorem exists_sublist (assigned : Assigned entries weight length) :
    ∃ chosen : List Nat, chosen.Sublist (entries.map Extent.weight) ∧ chosen.sum = weight := by
  induction entries generalizing weight length with
  | nil => exact ⟨[], .slnil, (nil_iff.1 assigned).1.symm⟩
  | cons entry entries ih =>
    obtain ⟨sum, total, rest, here⟩ := cons_iff.1 assigned
    obtain ⟨chosen, inside, rfl⟩ := ih rest
    rcases here with ⟨rfl, _⟩ | ⟨rfl, _⟩
    · exact ⟨chosen, inside.cons _, rfl⟩
    · exact ⟨entry.weight :: chosen, inside.cons_cons _, List.sum_cons⟩

end Assigned

section Search

variable {needed : Nat} {buckets : Buckets Nat} {entry : Extent} {entries others : List Extent}

/-- A sum and a length are those of a choice, up to the weight needed, where the sum does not count
some of the weight yet. -/
def Attained (needed uncounted : Nat) (entries : List Extent) (sum length : Nat) : Prop :=
  ∃ weight, Assigned entries (weight + uncounted) length ∧ sum = min needed weight

namespace Attained

variable {uncounted sum length x y : Nat}

theorem max (left : Attained needed uncounted entries sum x)
    (right : Attained needed uncounted entries sum y) :
    Attained needed uncounted entries sum (max x y) := by
  rcases Nat.le_total x y with le | le
  · rwa [Nat.max_eq_right le]
  · rwa [Nat.max_eq_left le]

theorem count_of_lt (attained : Attained needed uncounted entries sum length)
    (low : sum + uncounted < needed) : Attained needed 0 entries (sum + uncounted) length := by
  obtain ⟨weight, assigned, eq⟩ := attained
  exact ⟨weight + uncounted, assigned, by omega⟩

theorem count_of_le (attained : Attained needed uncounted entries sum length)
    (high : needed ≤ sum + uncounted) : Attained needed 0 entries needed length := by
  obtain ⟨weight, assigned, eq⟩ := attained
  exact ⟨weight + uncounted, assigned, by omega⟩

end Attained

def Held (needed : Nat) (entries : List Extent) (buckets : Buckets Nat) : Prop :=
  ∀ bucket ∈ buckets, ∃ weight, Assigned entries weight bucket.2 ∧ bucket.1 = min needed weight

theorem grown_held (held : Held needed entries buckets) (entry : Extent) :
    Held needed (entries ++ [entry]) (grown needed buckets entry) := by
  have closed : ∀ sum x y, Attained needed 0 (entries ++ [entry]) sum x →
      Attained needed 0 (entries ++ [entry]) sum y →
        Attained needed 0 (entries ++ [entry]) sum (max x y) := fun _ _ _ => Attained.max
  have hidden : ∀ b ∈ Buckets.map (· + entry.hidden) buckets,
      Attained needed 0 (entries ++ [entry]) b.1 b.2 := by
    intro b mem
    obtain ⟨old, inside, rfl⟩ := List.mem_map.1 mem
    obtain ⟨weight, assigned, sum⟩ := held old inside
    exact ⟨weight, assigned.snoc_hidden entry, sum⟩
  have revealed : ∀ b ∈ Buckets.map (· + entry.revealed) buckets,
      Attained needed entry.weight (entries ++ [entry]) b.1 b.2 := by
    intro b mem
    obtain ⟨old, inside, rfl⟩ := List.mem_map.1 mem
    obtain ⟨weight, assigned, sum⟩ := held old inside
    exact ⟨weight, assigned.snoc_revealed entry, sum⟩
  have raised := Buckets.forall_raise closed (fun _ _ => Attained.count_of_lt)
    (fun _ _ => Attained.count_of_le) revealed
  exact Buckets.forall_merge closed hidden raised

def greatest (needed : Nat) (entries : List Extent) : Buckets Nat :=
  entries.foldl (grown needed) [(0, 0)]

theorem greatest_rising (needed : Nat) (entries : List Extent) :
    Buckets.Rising (greatest needed entries) :=
  foldl_grown_rising (List.pairwise_singleton _ _) entries

theorem greatest_held (needed : Nat) (entries : List Extent) :
    Held needed entries (greatest needed entries) := by
  induction entries using List.reverseRecOn with
  | nil =>
    intro bucket mem
    obtain rfl := List.mem_singleton.1 mem
    exact ⟨0, Assigned.nil_iff.2 ⟨rfl, rfl⟩, by simp⟩
  | append_singleton entries entry ih =>
    rw [greatest, List.foldl_append]
    exact grown_held ih entry

theorem greatest_reaches {weight length : Nat} (needed : Nat)
    (assigned : Assigned entries weight length) :
    Reaches (greatest needed entries) (min needed weight) length := by
  obtain ⟨flags, long, rfl, rfl⟩ := assigned
  have reaches := foldl_grown_reaches long (reaches_start needed)
  rwa [Nat.zero_add, Nat.zero_add] at reaches

theorem length_greatest (needed : Nat) (entries : List Extent) :
    (greatest needed entries).length = (cappedSums needed (entries.map Extent.weight)).card := by
  have same : (List.map Prod.fst (greatest needed entries)).toFinset =
      cappedSums needed (entries.map Extent.weight) := by
    ext sum
    rw [List.mem_toFinset, List.mem_map, mem_cappedSums]
    constructor
    · rintro ⟨bucket, inside, rfl⟩
      obtain ⟨weight, assigned, sum⟩ := greatest_held needed entries bucket inside
      obtain ⟨chosen, part, rfl⟩ := assigned.exists_sublist
      exact ⟨chosen, part, sum.symm⟩
    · rintro ⟨chosen, part, rfl⟩
      obtain ⟨length, assigned⟩ := Assigned.of_sublist part
      obtain ⟨best, mem, _⟩ := greatest_reaches needed assigned
      exact ⟨_, mem, rfl⟩
  rw [← same, List.toFinset_card_of_nodup (greatest_rising needed entries).nodup,
    List.length_map]

/-- The lengths of all choices that reach the weight needed. -/
def feasibleLengths (needed : Nat) (entries : List Extent) : Set Nat :=
  {length | ∃ flags, flags.length = entries.length ∧
    needed ≤ Extent.chosenWeight entries flags ∧ Extent.chosenLength entries flags = length}

theorem mem_feasibleLengths {length : Nat} : length ∈ feasibleLengths needed entries ↔
    ∃ weight, Assigned entries weight length ∧ needed ≤ weight := by
  constructor
  · rintro ⟨flags, long, enough, same⟩
    exact ⟨_, ⟨flags, long, rfl, same⟩, enough⟩
  · rintro ⟨_, ⟨flags, long, rfl, same⟩, enough⟩
    exact ⟨flags, long, enough, same⟩

theorem feasibleLengths_perm (perm : entries.Perm others) :
    feasibleLengths needed entries = feasibleLengths needed others := by
  ext length
  rw [mem_feasibleLengths, mem_feasibleLengths]
  exact exists_congr fun weight =>
    and_congr_left' ⟨fun assigned => assigned.perm perm, fun assigned => assigned.perm perm.symm⟩

theorem lookup_of_feasible {length : Nat} (feasible : length ∈ feasibleLengths needed entries) :
    ∃ best, (greatest needed entries).lookup needed = some best ∧ length ≤ best := by
  obtain ⟨weight, assigned, enough⟩ := mem_feasibleLengths.1 feasible
  exact (greatest_reaches needed assigned).lookup (greatest_rising needed entries) enough

theorem lookup_greatest {length : Nat} : (greatest needed entries).lookup needed = some length ↔
    IsGreatest (feasibleLengths needed entries) length := by
  have found {length : Nat} (known : (greatest needed entries).lookup needed = some length) :
      IsGreatest (feasibleLengths needed entries) length := by
    obtain ⟨weight, assigned, sum⟩ :=
      greatest_held needed entries _ (Buckets.mem_of_lookup known)
    refine ⟨mem_feasibleLengths.2 ⟨weight, assigned, by dsimp only at sum; omega⟩, ?_⟩
    intro other mem
    obtain ⟨best, here, le⟩ := lookup_of_feasible mem
    rw [known] at here
    cases here
    exact le
  refine ⟨found, fun top => ?_⟩
  obtain ⟨best, known, _⟩ := lookup_of_feasible top.1
  rw [known, (found known).unique top]

theorem lookup_greatest_eq_none : (greatest needed entries).lookup needed = none ↔
    (entries.map Extent.weight).sum < needed := by
  constructor
  · intro unknown
    refine Nat.lt_of_not_le fun enough => ?_
    obtain ⟨length, assigned⟩ := Assigned.of_sublist (List.Sublist.refl (entries.map Extent.weight))
    obtain ⟨best, known, _⟩ := lookup_of_feasible (mem_feasibleLengths.2 ⟨_, assigned, enough⟩)
    rw [known] at unknown
    cases unknown
  · intro short
    rw [Option.eq_none_iff_forall_ne_some]
    intro length known
    obtain ⟨weight, assigned, enough⟩ := mem_feasibleLengths.1 (lookup_greatest.1 known).1
    have le := assigned.weight_le
    omega

theorem lookup_greatest_perm (needed : Nat) (perm : entries.Perm others) :
    (greatest needed entries).lookup needed = (greatest needed others).lookup needed := by
  ext length
  rw [lookup_greatest, lookup_greatest, feasibleLengths_perm perm]

theorem length_le_grown (rising : Buckets.Rising buckets) (entry : Extent) :
    buckets.length ≤ (grown needed buckets entry).length := by
  refine rising.length_le fun bucket inside => ?_
  have here : Reaches buckets bucket.1 bucket.2 := ⟨bucket.2, inside, Nat.le_refl _⟩
  have hidden : Reaches (buckets.map (· + entry.hidden)) bucket.1 (bucket.2 + entry.hidden) :=
    here.map fun _ _ le => Nat.add_le_add_right le _
  obtain ⟨length, mem, _⟩ : Reaches (grown needed buckets entry) bucket.1 _ :=
    hidden.merge_left Buckets.prefers_max
  exact ⟨length, mem⟩

theorem length_le_foldl_grown (rising : Buckets.Rising buckets) (entries : List Extent) :
    buckets.length ≤ (entries.foldl (grown needed) buckets).length := by
  induction entries generalizing buckets with
  | nil => exact Nat.le_refl _
  | cons entry entries ih =>
    exact Nat.le_trans (length_le_grown rising entry) (ih (grown_rising rising entry))

theorem foldlM_extend_eq (rising : Buckets.Rising buckets) (few : buckets.length ≤ maxSums)
    (fits : entries.foldlM (extend needed) buckets ≠ .error .sizeOverflow) :
    entries.foldlM (extend needed) buckets =
      if maxSums < (entries.foldl (grown needed) buckets).length
        then .error (.fulfillment (.tooManySums maxSums))
        else .ok (entries.foldl (grown needed) buckets) := by
  induction entries generalizing buckets with
  | nil => exact (if_neg (Nat.not_lt.2 few)).symm
  | cons entry entries ih =>
    rw [List.foldlM_cons] at fits ⊢
    rw [List.foldl_cons]
    have rising : Buckets.Rising (grown needed buckets entry) := grown_rising rising entry
    have more : (grown needed buckets entry).length ≤
        (entries.foldl (grown needed) (grown needed buckets entry)).length :=
      length_le_foldl_grown rising entries
    cases step : extend needed buckets entry with
    | ok next =>
      obtain ⟨rfl, few⟩ := extend_eq_ok step
      rw [bind_of_ok step] at fits
      exact ih rising few fits
    | error e =>
      rw [bind_of_error step] at fits
      rw [extend, ← grown] at step
      split at step
      · cases step
        exact absurd rfl fits
      · split at step
        · next many =>
          cases step
          rw [if_pos (Nat.lt_of_lt_of_le many more)]
          rfl
        · cases step

theorem largest?_eq (fits : largest? needed entries ≠ .error .sizeOverflow) :
    largest? needed entries =
      if maxSums < (cappedSums needed (entries.map Extent.weight)).card
        then .error (.fulfillment (.tooManySums maxSums))
        else .ok ((greatest needed entries).lookup needed) := by
  have fits : entries.foldlM (extend needed) [(0, 0)] ≠ .error .sizeOverflow := fun overflow =>
    fits (by rw [largest?, bind_of_error overflow])
  have searched := foldlM_extend_eq (List.pairwise_singleton _ _) (by decide) fits
  rw [← greatest, length_greatest] at searched
  rw [largest?, searched]
  split <;> rfl

end Search

end CryptoConditions.Threshold
