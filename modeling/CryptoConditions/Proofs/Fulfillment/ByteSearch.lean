import CryptoConditions.Proofs.Fulfillment.Bound
import CryptoConditions.Proofs.Fulfillment.Minimal
import CryptoConditions.Proofs.Threshold.ByteSearch
import CryptoConditions.Proofs.Threshold.Sums

/-! The search over bytes finds what the search over flags finds. Its candidates are the choices
of parts that can be revealed with the bytes that these choices write, one for every sum, and none
of them is beaten; so where the sums of all weights are few it never fails, and it ends with the
choice whose flags come first. -/

namespace CryptoConditions.Fulfillment

open Threshold (Buckets Candidate Offer cappedSums maxSums)

def offer (sub : Fulfillment) : Except ConditionError Offer := do
  let hidden := Threshold.hiddenEntry sub.commitment
  if sub.canReveal then
    let binary ← sub.binary
    return ⟨sub.weight.toNat, hidden, some (Threshold.revealedEntry sub.commitment binary)⟩
  else return ⟨sub.weight.toNat, hidden, none⟩

/-- The choice of parts by a search over the bytes of their entries. -/
def selectBytes (needed : UInt32) (subs : List Fulfillment) : Except ConditionError Selection := do
  let offers ← subs.mapM offer
  match ← Threshold.cheapestBytes? needed.toNat offers with
  | none => return .unsatisfied (liveWeight subs)
  | some best =>
    let length := Threshold.headerLength subs.length + best.encoding.length
    return if Threshold.maxPayload < length then .tooLarge length else .revealed best.flags

section Parts

variable {sub : Fulfillment} {subs more : List Fulfillment} {flags others : List Bool}
  {bytes : Bytes} {c : Candidate} {weight : Nat}

theorem entries_append (long : flags.length = subs.length) :
    entries (subs ++ more) (flags ++ others) = .ok bytes ↔
      ∃ front back, entries subs flags = .ok front ∧ entries more others = .ok back ∧
        bytes = front ++ back := by
  induction subs generalizing flags bytes with
  | nil =>
    obtain rfl := List.eq_nil_of_length_eq_zero long
    constructor
    · intro written
      exact ⟨[], bytes, entries_nil.2 rfl, written, rfl⟩
    · rintro ⟨front, back, nothing, written, rfl⟩
      obtain rfl := entries_nil.1 nothing
      exact written
  | cons sub subs ih =>
    obtain ⟨flag, flags, rfl⟩ := List.exists_cons_of_length_eq_add_one long
    have rest {bytes : Bytes} := @ih flags bytes (Nat.succ.inj long)
    rw [List.cons_append, List.cons_append]
    cases flag with
    | false =>
      simp only [entries_false, rest]
      constructor
      · rintro ⟨_, ⟨front, back, first, second, rfl⟩, rfl⟩
        exact ⟨_, back, ⟨front, first, rfl⟩, second, by rw [List.append_assoc]⟩
      · rintro ⟨_, back, ⟨front, first, rfl⟩, second, rfl⟩
        exact ⟨_, ⟨front, back, first, second, rfl⟩, by rw [List.append_assoc]⟩
    | true =>
      simp only [entries_true, rest]
      constructor
      · rintro ⟨shown, _, paid, ⟨front, back, first, second, rfl⟩, rfl⟩
        exact ⟨_, back, ⟨shown, front, paid, first, rfl⟩, second, by rw [List.append_assoc]⟩
      · rintro ⟨_, back, ⟨shown, front, paid, first, rfl⟩, second, rfl⟩
        exact ⟨shown, _, paid, ⟨front, back, first, second, rfl⟩, by rw [List.append_assoc]⟩

theorem revealedWeight_append (entries more : List (Fulfillment × Bool)) :
    revealedWeight (entries ++ more) = revealedWeight entries + revealedWeight more := by
  simp only [revealedWeight, List.filter_append, List.map_append, List.sum_append]

structure Writes (subs : List Fulfillment) (c : Candidate) (weight : Nat) : Prop where
  long : c.flags.length = subs.length
  written : entries subs c.flags = .ok c.encoding
  weights : revealedWeight (subs.zip c.flags) = weight

theorem Writes.hide (h : Writes subs c weight) (sub : Fulfillment) :
    Writes (subs ++ [sub]) (c.extend (Threshold.hiddenEntry sub.commitment) false) weight where
  long := by simp only [Candidate.extend, List.length_append, h.long, List.length_singleton]
  written := (entries_append h.long).2
    ⟨_, _, h.written, entries_false.2 ⟨[], entries_nil.2 rfl, rfl⟩,
      by rw [List.append_nil]; rfl⟩
  weights := by
    rw [Candidate.extend, List.zip_append h.long.symm, revealedWeight_append, h.weights]
    rfl

theorem Writes.reveal (h : Writes subs c weight) {shown : Bytes} (paid : sub.payload = .ok shown) :
    Writes (subs ++ [sub])
      (c.extend (Threshold.revealedEntry sub.commitment (frame sub.type shown)) true)
      (weight + sub.weight.toNat) where
  long := by simp only [Candidate.extend, List.length_append, h.long, List.length_singleton]
  written := (entries_append h.long).2
    ⟨_, _, h.written, entries_true.2 ⟨shown, [], paid, entries_nil.2 rfl, rfl⟩,
      by rw [List.append_nil]; rfl⟩
  weights := by
    rw [Candidate.extend, List.zip_append h.long.symm, revealedWeight_append, h.weights]
    rfl

theorem Writes.of_append_singleton (h : Writes (subs ++ [sub]) c weight) :
    ∃ before sum, Writes subs before sum ∧
      (c = before.extend (Threshold.hiddenEntry sub.commitment) false ∧ weight = sum ∨
        ∃ shown, sub.payload = .ok shown ∧
          c = before.extend (Threshold.revealedEntry sub.commitment (frame sub.type shown)) true ∧
          weight = sum + sub.weight.toNat) := by
  obtain ⟨encoding, flags⟩ := c
  obtain ⟨long, written, rfl⟩ := h
  dsimp only at long written ⊢
  rw [List.length_append, List.length_singleton] at long
  -- The flag of the last part is the last one.
  obtain ⟨flags, flag, rfl⟩ : ∃ front last, flags = front ++ [last] := by
    rcases List.eq_nil_or_concat flags with rfl | ⟨front, last, rfl⟩
    · cases long
    · exact ⟨front, last, List.concat_eq_append⟩
  rw [List.length_append, List.length_singleton] at long
  have long := Nat.succ.inj long
  obtain ⟨front, back, first, last, rfl⟩ := (entries_append long).1 written
  refine ⟨⟨front, flags⟩, _, ⟨long, first, rfl⟩, ?_⟩
  rw [List.zip_append long.symm, revealedWeight_append]
  cases flag with
  | false =>
    obtain ⟨rest, nothing, rfl⟩ := entries_false.1 last
    obtain rfl := entries_nil.1 nothing
    exact Or.inl ⟨by rw [List.append_nil]; rfl, rfl⟩
  | true =>
    obtain ⟨shown, rest, paid, nothing, rfl⟩ := entries_true.1 last
    obtain rfl := entries_nil.1 nothing
    exact Or.inr ⟨shown, paid, by rw [List.append_nil]; rfl, rfl⟩

theorem Writes.choice (h : Writes subs c weight) :
    Threshold.Choice (subs.map fun sub => share sub.commitment sub) c.flags c.encoding.length
      weight := by
  obtain ⟨length, choice⟩ :=
    choice_of_payloads h.long fun sub mem => payload_of_entries h.written mem
  obtain ⟨_, _, shown, written, same⟩ := entries_of_choice choice
  rw [h.written] at written
  cases written
  rw [same, ← h.weights]
  exact choice

theorem writes_of_choice {length : Nat}
    (choice : Threshold.Choice (subs.map fun sub => share sub.commitment sub) flags length weight) :
    ∃ encoding, Writes subs ⟨encoding, flags⟩ weight ∧ encoding.length = length := by
  obtain ⟨long, weights, shown, written, same⟩ := entries_of_choice choice
  exact ⟨shown, ⟨long, written, weights⟩, same⟩

theorem Writes.same_of_first {best : Candidate} {sum : Nat} (h : Writes subs c weight)
    (h' : Writes subs best sum) (ahead : best.Ahead c)
    (noWorse : Threshold.Plan.NoWorse ⟨c.encoding.length, c.flags⟩
      ⟨best.encoding.length, best.flags⟩) :
    best.encoding.length = c.encoding.length ∧
      (best.encoding.length < 2 ^ 64 → best.flags = c.flags) := by
  have le : c.encoding.length ≤ best.encoding.length := noWorse.length_le
  rcases ahead with shorter | ⟨same, first⟩
  · omega
  · refine ⟨same, fun small => ?_⟩
    have before : Threshold.Plan.flagsBefore c.flags best.flags = true := by
      rcases noWorse with shorter | ⟨_, before⟩
      · dsimp only at shorter
        omega
      · exact before
    rcases entries_lt h.long h'.long h.written h'.written small before with equal | less
    · exact equal
    · exact absurd less (List.not_lt.2 first)

theorem Writes.mem_cappedSums (h : Writes subs c weight) (needed : Nat) :
    min needed weight ∈ cappedSums needed (subs.map fun sub => sub.weight.toNat) := by
  have assigned : Threshold.Assigned ((subs.map commitment).map Threshold.fullExtent) weight _ :=
    ⟨c.flags, by rw [List.length_map, List.length_map, h.long],
      by rw [chosenWeight_fullExtent, h.weights], rfl⟩
  obtain ⟨chosen, part, rfl⟩ := assigned.exists_sublist
  rw [List.map_map, List.map_map] at part
  exact Threshold.mem_cappedSums.2 ⟨chosen, part, rfl⟩

def offerOf (sub : Fulfillment) : Offer :=
  ⟨sub.weight.toNat, Threshold.hiddenEntry sub.commitment, match sub.payload with
    | .ok shown => some (Threshold.revealedEntry sub.commitment (frame sub.type shown))
    | .error _ => none⟩

theorem WellFormed.offer_eq (h : sub.WellFormed) : sub.offer = .ok sub.offerOf := by
  by_cases can : sub.canReveal = true
  · obtain ⟨shown, paid⟩ := h.payload can
    have written : sub.binary = .ok (frame sub.type shown) := binary_eq_ok.2 ⟨shown, paid, rfl⟩
    simp only [offer, offerOf, can, if_true, bind_of_ok written, paid]
    rfl
  · cases paid : sub.payload with
    | ok shown => exact absurd (h.canReveal_iff.2 ⟨shown, paid⟩) can
    | error e =>
      simp only [offer, offerOf, can, paid]
      rfl

theorem mapM_offer (wellFormed : ∀ sub ∈ subs, sub.WellFormed) :
    subs.mapM offer = .ok (subs.map offerOf) := by
  induction subs with
  | nil => rfl
  | cons sub subs ih =>
    rw [List.forall_mem_cons] at wellFormed
    rw [List.mapM_cons, bind_of_ok wellFormed.1.offer_eq, bind_of_ok (ih wellFormed.2)]
    rfl

theorem mem_candidates {needed : Nat} {bucket found : Nat × Candidate} :
    found ∈ Threshold.candidates needed sub.offerOf bucket ↔
      found = (bucket.1, bucket.2.extend (Threshold.hiddenEntry sub.commitment) false) ∨
        ∃ shown, sub.payload = .ok shown ∧
          found = (min needed (bucket.1 + sub.weight.toNat),
            bucket.2.extend (Threshold.revealedEntry sub.commitment (frame sub.type shown))
              true) := by
  rw [Threshold.candidates, offerOf]
  cases paid : sub.payload with
  | ok shown => simp
  | error e => simp

end Parts

section Search

variable {needed : Nat} {sub : Fulfillment} {subs : List Fulfillment} {buckets : Buckets Candidate}

/-- The buckets hold candidates only, and for every candidate one that is not beaten by it. -/
structure Explored (needed : Nat) (subs : List Fulfillment) (buckets : Buckets Candidate) :
    Prop where
  rising : Buckets.Rising buckets
  held : ∀ b ∈ buckets, ∃ weight, Writes subs b.2 weight ∧ b.1 = min needed weight
  covers : ∀ c weight, Writes subs c weight →
    Buckets.Covers Candidate.Ahead buckets (min needed weight) c

theorem explored_start (needed : Nat) : Explored needed [] [(0, ⟨[], []⟩)] where
  rising := List.pairwise_singleton _ _
  held b mem := by
    obtain rfl := List.mem_singleton.1 mem
    exact ⟨0, ⟨rfl, entries_nil.2 rfl, rfl⟩, by simp⟩
  covers c weight writes := by
    obtain ⟨encoding, flags⟩ := c
    obtain ⟨long, written, rfl⟩ := writes
    obtain rfl := List.eq_nil_of_length_eq_zero long
    obtain rfl := entries_nil.1 written
    exact ⟨_, List.mem_singleton.2 (by simp [revealedWeight]), Candidate.Ahead.refl _⟩

def Reaching (needed : Nat) (subs : List Fulfillment) (sum : Nat) (c : Candidate) : Prop :=
  ∃ weight, Writes subs c weight ∧ sum = min needed weight

theorem Explored.advance (h : Explored needed subs buckets) (sub : Fulfillment) :
    Explored needed (subs ++ [sub]) (Threshold.advance needed buckets sub.offerOf) where
  rising := Buckets.gather_rising _
  held := by
    have closed : ∀ sum x y, Reaching needed (subs ++ [sub]) sum x →
        Reaching needed (subs ++ [sub]) sum y → Reaching needed (subs ++ [sub]) sum (x.keep y) :=
      fun _ _ _ => Candidate.keep_closed
    refine Buckets.forall_gather closed fun found mem => ?_
    obtain ⟨bucket, inside, mem⟩ := List.mem_flatMap.1 mem
    obtain ⟨weight, writes, same⟩ := h.held bucket inside
    rcases mem_candidates.1 mem with rfl | ⟨shown, paid, rfl⟩
    · exact ⟨weight, writes.hide sub, same⟩
    · exact ⟨_, writes.reveal paid, by dsimp only; omega⟩
  covers c weight writes := by
    have offered {sum : Nat} {before : Candidate} {entry : Bytes} {flag : Bool} {reached : Nat}
        (covered : Buckets.Covers Candidate.Ahead buckets sum before)
        (joins : ∀ best, (reached, best.extend entry flag) ∈
          Threshold.candidates needed sub.offerOf (sum, best)) :
        Buckets.Covers Candidate.Ahead (Threshold.advance needed buckets sub.offerOf) reached
          (before.extend entry flag) := by
      obtain ⟨best, mem, ahead⟩ := covered
      obtain ⟨kept, inside, good⟩ := Buckets.gather_covers Candidate.prefers_keep
        (List.mem_flatMap.2 ⟨_, mem, joins best⟩)
      exact ⟨kept, inside, good.trans (ahead.extend entry flag)⟩
    -- What stood before the last entry is covered, and what follows keeps the order.
    obtain ⟨before, sum, prior, ⟨rfl, rfl⟩ | ⟨shown, paid, rfl, rfl⟩⟩ :=
      writes.of_append_singleton
    · exact offered (h.covers before weight prior) fun best => mem_candidates.2 (Or.inl rfl)
    · have capped : min needed (sum + sub.weight.toNat) =
          min needed (min needed sum + sub.weight.toNat) := by omega
      rw [capped]
      exact offered (h.covers before sum prior) fun best =>
        mem_candidates.2 (Or.inr ⟨shown, paid, rfl⟩)

theorem Explored.length_le (h : Explored needed subs buckets) :
    buckets.length ≤ (cappedSums needed (subs.map fun sub => sub.weight.toNat)).card := by
  refine h.rising.length_le_card fun bucket inside => ?_
  obtain ⟨weight, writes, same⟩ := h.held bucket inside
  rw [same]
  exact writes.mem_cappedSums needed

theorem exists_explored
    (few : (cappedSums needed (subs.map fun sub => sub.weight.toNat)).card ≤ maxSums) :
    ∃ buckets, (subs.map offerOf).foldlM (Threshold.searchStep needed) [(0, ⟨[], []⟩)] =
      .ok buckets ∧ Explored needed subs buckets := by
  induction subs using List.reverseRecOn with
  | nil => exact ⟨_, rfl, explored_start needed⟩
  | append_singleton subs sub ih =>
    have part : (subs.map fun sub => sub.weight.toNat).Sublist
        ((subs ++ [sub]).map fun sub => sub.weight.toNat) :=
      (List.sublist_append_left subs [sub]).map _
    obtain ⟨buckets, searched, explored⟩ :=
      ih (Nat.le_trans (Finset.card_le_card (Threshold.cappedSums_mono part)) few)
    have next := explored.advance sub
    have narrow := Nat.le_trans next.length_le few
    refine ⟨_, ?_, next⟩
    rw [List.map_append, List.foldlM_append, bind_of_ok searched, List.map_singleton,
      List.foldlM_cons, Threshold.searchStep, if_neg (Nat.not_lt.2 narrow)]
    rfl

theorem cheapestBytes?_eq
    (few : (cappedSums needed (subs.map fun sub => sub.weight.toNat)).card ≤ maxSums) :
    ∃ buckets, Threshold.cheapestBytes? needed (subs.map offerOf) = .ok (buckets.lookup needed) ∧
      Explored needed subs buckets := by
  obtain ⟨buckets, searched, explored⟩ := exists_explored few
  exact ⟨buckets, by rw [Threshold.cheapestBytes?, bind_of_ok searched]; rfl, explored⟩

end Search

theorem selectBytes_eq {needed : UInt32} {subs : List Fulfillment}
    (wellFormed : ∀ sub ∈ subs, sub.WellFormed)
    (few : (cappedSums needed.toNat (subs.map fun sub => sub.weight.toNat)).card ≤ maxSums) :
    selectBytes needed subs =
      .ok (Threshold.select needed (subs.map fun sub => share sub.commitment sub)) := by
  obtain ⟨buckets, searched, explored⟩ := cheapestBytes?_eq few
  rw [selectBytes, bind_of_ok (mapM_offer wellFormed), bind_of_ok searched]
  rcases Threshold.select_cases needed (subs.map fun sub => share sub.commitment sub) with
    ⟨unsatisfied, short⟩ | ⟨flags, length, weight, choice, enough, least, cut⟩
  · cases found : buckets.lookup needed.toNat with
    | none =>
      rw [unsatisfied, available_shares wellFormed]
      rfl
    | some best =>
      obtain ⟨weight, writes, same⟩ := explored.held _ (Buckets.mem_of_lookup found)
      have less := short _ _ _ writes.choice
      dsimp only at same
      omega
  -- Neither search beats the choice that the other one ends with.
  · obtain ⟨encoding, writes, rfl⟩ := writes_of_choice choice
    obtain ⟨best, found, ahead⟩ := (explored.covers _ _ writes).lookup explored.rising enough
    obtain ⟨sum, writes', same⟩ := explored.held _ (Buckets.mem_of_lookup found)
    dsimp only at same
    have noWorse := least _ _ _ writes'.choice (by omega)
    obtain ⟨lengths, flags_eq⟩ := writes.same_of_first writes' ahead noWorse
    rw [found, cut, List.length_map]
    dsimp only
    rw [lengths]
    split
    · rfl
    · next fits =>
      rw [Threshold.maxPayload] at fits
      rw [flags_eq (by omega)]
      rfl

end CryptoConditions.Fulfillment
