import CryptoConditions.Proofs.Fulfillment.RoundTrip
import CryptoConditions.Proofs.Threshold.Headroom

/-! The size of a threshold is exact: it is the length of the longest payload that could reach
the threshold if each part could be revealed, with a payload as long as its condition allows. -/

namespace CryptoConditions.Fulfillment

open Threshold (Extent cappedSums feasibleLengths fullExtent greatest largest? maxSums)

def fullExtents (subs : List Fulfillment) : List Extent :=
  subs.map fun sub => fullExtent sub.commitment

theorem Assembled.size_eq {needed : UInt32} {subs : List Fulfillment} {selection : Selection}
    {c : Condition} (h : Assembled needed subs selection c) :
    ∃ body, IsGreatest (feasibleLengths needed.toNat (fullExtents subs)) body ∧
      c.size.toNat = 4 + Wire.uintLength subs.length + body := by
  obtain ⟨n, sized, declared⟩ := Threshold.size_of_condition h.condition_eq
  obtain ⟨body, searched, rfl, fits⟩ := Threshold.size_eq_ok sized
  rw [List.map_map] at searched
  have found := Threshold.largest?_eq (searched.trans_ne (by simp))
  rw [searched] at found
  split at found
  · cases found
  · refine ⟨body, Threshold.lookup_greatest.1 (Except.ok.inj found).symm, ?_⟩
    rw [declared, UInt64.toNat_ofNat', Nat.mod_eq_of_lt fits, List.length_map,
      Threshold.headerLength]

/-- Where no length overflows and the sums are not too many, the search for the greatest length
finds it, in whatever order the entries are; and it is what the size of a threshold goes by. -/
theorem largest_length_exact :
    (∀ (needed : Nat) (entries : List Extent),
      (∀ flags, flags.length = entries.length → Extent.chosenLength entries flags < 2 ^ 64) →
      (cappedSums needed (entries.map Extent.weight)).card ≤ maxSums →
      ∃ found, largest? needed entries = .ok found ∧
        (found = none ↔ (entries.map Extent.weight).sum < needed) ∧
        (∀ length, found = some length ↔ IsGreatest (feasibleLengths needed entries) length) ∧
        ∀ others : List Extent, others.Perm entries →
          largest? needed others = largest? needed entries) ∧
    ∀ (w : Weight) (needed : UInt32) (subs : List Fulfillment) (selection : Selection)
      (c : Condition), (threshold w needed subs selection c).Obtained →
      ∃ body, IsGreatest (feasibleLengths needed.toNat (fullExtents subs)) body ∧
        c.size.toNat = 4 + Wire.uintLength subs.length + body := by
  constructor
  · intro needed entries fits few
    have searched {others : List Extent} (perm : others.Perm entries) :
        largest? needed others = .ok ((greatest needed entries).lookup needed) := by
      have quiet : largest? needed others ≠ .error .sizeOverflow :=
        Threshold.largest?_ne_overflow needed fun flags long => by
          obtain ⟨flags', long', _, same⟩ := Threshold.Assigned.perm perm ⟨flags, long, rfl, rfl⟩
          rw [← same]
          exact fits flags' long'
      rw [Threshold.largest?_eq quiet, Threshold.cappedSums_perm (perm.map Extent.weight),
        if_neg (Nat.not_lt.2 few), Threshold.lookup_greatest_perm needed perm]
    have here := searched (List.Perm.refl entries)
    exact ⟨_, here, Threshold.lookup_greatest_eq_none, fun _ => Threshold.lookup_greatest,
      fun others perm => (searched perm).trans here.symm⟩
  · intro w needed subs selection c obtained
    cases obtained.wellFormed with
    | threshold _ assembled => exact assembled.size_eq

theorem largest_length_exact_pair :
    (∃ found, largest? 1 [⟨1, 100, 40⟩, ⟨1, 10, 40⟩] = .ok found ∧
      ∀ length, found = some length ↔
        IsGreatest (feasibleLengths 1 [⟨1, 100, 40⟩, ⟨1, 10, 40⟩]) length) ∧
    ∃ (c : Condition) (body : Nat),
      (threshold Weight.one 2 sampleParts (.revealed [true, false]) c).Obtained ∧
      IsGreatest (feasibleLengths 2 (fullExtents sampleParts)) body ∧
      c.size.toNat = 4 + Wire.uintLength sampleParts.length + body := by
  constructor
  · have fits : ∀ flags : List Bool, flags.length = 2 →
        Extent.chosenLength [⟨1, 100, 40⟩, ⟨1, 10, 40⟩] flags < 2 ^ 64 := by
      intro flags long
      obtain ⟨first, second, rfl⟩ := List.length_eq_two.1 long
      cases first <;> cases second <;> decide
    obtain ⟨found, searched, _, exact, _⟩ :=
      largest_length_exact.1 1 [⟨1, 100, 40⟩, ⟨1, 10, 40⟩] fits (by decide)
    exact ⟨found, searched, exact⟩
  · obtain ⟨c, made⟩ := ofThreshold_sampleParts
    have obtained : (threshold Weight.one 2 sampleParts (.revealed [true, false]) c).Obtained :=
      Built.threshold built_sampleParts made
    obtain ⟨body, top, size⟩ := largest_length_exact.2 _ _ _ _ _ obtained
    exact ⟨c, body, obtained, top, size⟩

end CryptoConditions.Fulfillment
