import CryptoConditions.Proofs.Fulfillment.RoundTrip

/-! The payload of a threshold that is put together is the least one: of all choices of
parts that can be shown and have enough weight none has a shorter payload, and none of
the same length has bytes that come first. The search compares flags; bytes are in the
same order, since a hidden entry comes before the revealed entry of the same part. -/

namespace CryptoConditions

namespace Wire

theorem octets_cons {bytes : Bytes} (nonempty : bytes ≠ []) (small : bytes.length < 2 ^ 64) :
    ∃ first rest, octets bytes = first :: rest ∧ 0 < first := by
  have pos := List.length_pos_iff.2 nonempty
  rw [octets, length]
  split
  · next short =>
    refine ⟨_, _, rfl, UInt8.lt_iff_toNat_lt.2 ?_⟩
    rw [UInt8.toNat_ofNat', Nat.mod_eq_of_lt (by omega)]
    exact pos
  · have width : byteWidth bytes.length ≤ 8 := byteWidth_le small (by decide)
    refine ⟨_, _, rfl, UInt8.lt_iff_toNat_lt.2 ?_⟩
    rw [UInt8.toNat_ofNat', Nat.mod_eq_of_lt (by omega)]
    exact Nat.lt_of_lt_of_le (by decide) (Nat.le_add_right 128 _)

end Wire

namespace Fulfillment

theorem hiddenEntry_lt_revealedEntry (part : Commitment) {binary : Bytes} (nonempty : binary ≠ [])
    (small : binary.length < 2 ^ 64) (r s : Bytes) :
    Threshold.hiddenEntry part ++ r < Threshold.revealedEntry part binary ++ s := by
  obtain ⟨first, rest, shape, pos⟩ := Wire.octets_cons nonempty small
  have empty : Wire.octets [] = [0] := rfl
  rw [Threshold.hiddenEntry, Threshold.revealedEntry, shape, empty]
  simp only [List.append_assoc]
  exact List.append_left_lt (List.cons_lt_cons_iff.2 (Or.inl pos))

theorem entries_lt {subs : List Fulfillment} {flags others : List Bool} {bytes more : Bytes}
    (long : flags.length = subs.length) (long' : others.length = subs.length)
    (written : entries subs flags = .ok bytes) (written' : entries subs others = .ok more)
    (small : more.length < 2 ^ 64) (before : Threshold.Plan.flagsBefore flags others = true) :
    others = flags ∨ bytes < more := by
  induction subs generalizing flags others bytes more with
  | nil =>
    rw [List.eq_nil_of_length_eq_zero long, List.eq_nil_of_length_eq_zero long']
    exact Or.inl rfl
  | cons sub subs ih =>
    obtain ⟨flag, flags, rfl⟩ := List.exists_cons_of_length_eq_add_one long
    obtain ⟨other, others, rfl⟩ := List.exists_cons_of_length_eq_add_one long'
    rw [Threshold.Plan.flagsBefore_cons_cons] at before
    rcases before with ⟨rfl, rfl⟩ | ⟨rfl, before⟩
    · -- Where the flags first differ, so do the bytes.
      obtain ⟨rest, _, rfl⟩ := entries_false.1 written
      obtain ⟨shown, rest', _, _, rfl⟩ := entries_true.1 written'
      rw [List.length_append, Threshold.revealedEntry_length, Threshold.revealedLength,
        Wire.octetsLength] at small
      exact Or.inr (hiddenEntry_lt_revealedEntry _ (by simp [frame, bigEndian]) (by omega) _ _)
    · have tail {rest rest' : Bytes} (front : Bytes) (tails : entries subs flags = .ok rest)
          (tails' : entries subs others = .ok rest') (small : (front ++ rest').length < 2 ^ 64) :
          flag :: others = flag :: flags ∨ front ++ rest < front ++ rest' := by
        rw [List.length_append] at small
        exact (ih (Nat.succ.inj long) (Nat.succ.inj long') tails tails' (by omega) before).imp
          (congrArg _) List.append_left_lt
      cases flag with
      | false =>
        obtain ⟨rest, tails, rfl⟩ := entries_false.1 written
        obtain ⟨rest', tails', rfl⟩ := entries_false.1 written'
        exact tail _ tails tails' small
      | true =>
        obtain ⟨shown, rest, paid, tails, rfl⟩ := entries_true.1 written
        obtain ⟨shown', rest', paid', tails', rfl⟩ := entries_true.1 written'
        rw [paid] at paid'
        cases paid'
        exact tail _ tails tails' small

/-- Flags that reveal enough weight, of parts that can be revealed only. -/
structure Sufficient (needed : UInt32) (subs : List Fulfillment) (flags : List Bool) : Prop where
  length_eq : flags.length = subs.length
  live : ∀ sub, (sub, true) ∈ subs.zip flags → sub.canReveal = true
  enough : needed.toNat ≤ revealedWeight (subs.zip flags)

def payloadShowing (needed : UInt32) (subs : List Fulfillment) (flags : List Bool) :
    Except ConditionError Bytes := do
  let shown ← entries subs flags
  return Threshold.header needed subs.length ++ shown

def liveWeight (subs : List Fulfillment) : Nat :=
  ((subs.filter canReveal).map fun sub => sub.weight.toNat).sum

theorem payloadShowing_eq_ok {needed : UInt32} {subs : List Fulfillment} {flags : List Bool}
    {bytes : Bytes} : payloadShowing needed subs flags = .ok bytes ↔
      ∃ shown, entries subs flags = .ok shown ∧
        bytes = Threshold.header needed subs.length ++ shown := by
  simp only [payloadShowing, bind_eq_ok, pure_eq_ok]

theorem payload_revealed (w : Weight) (needed : UInt32) (subs : List Fulfillment)
    (flags : List Bool) (c : Condition) :
    (threshold w needed subs (.revealed flags) c).payload = payloadShowing needed subs flags := by
  simp only [payload, payloadShowing]

theorem payload_threshold_eq_ok {w : Weight} {needed : UInt32} {subs : List Fulfillment}
    {selection : Selection} {c : Condition} {shown : Bytes} :
    (threshold w needed subs selection c).payload = .ok shown ↔
      ∃ flags, selection = .revealed flags ∧ payloadShowing needed subs flags = .ok shown := by
  cases selection with
  | revealed flags =>
    rw [payload_revealed]
    constructor
    · exact fun paid => ⟨flags, rfl, paid⟩
    · rintro ⟨_, same, paid⟩
      cases same
      exact paid
  | _ => simp [payload]

theorem share_of_payload {sub : Fulfillment} {shown : Bytes} (paid : sub.payload = .ok shown) :
    (share sub.commitment sub).revealed = some (frame sub.type shown).length := by
  have written : sub.binary = .ok (frame sub.type shown) := binary_eq_ok.2 ⟨shown, paid, rfl⟩
  simp only [share, written]

theorem choice_of_payloads {subs : List Fulfillment} {flags : List Bool}
    (long : flags.length = subs.length)
    (paid : ∀ sub, (sub, true) ∈ subs.zip flags → ∃ shown, sub.payload = .ok shown) :
    ∃ length, Threshold.Choice (subs.map fun sub => share sub.commitment sub) flags length
      (revealedWeight (subs.zip flags)) := by
  induction subs generalizing flags with
  | nil =>
    obtain rfl := List.eq_nil_of_length_eq_zero long
    exact ⟨0, .nil⟩
  | cons sub subs ih =>
    obtain ⟨flag, flags, rfl⟩ := List.exists_cons_of_length_eq_add_one long
    obtain ⟨length, rest⟩ := ih (Nat.succ.inj long) fun part mem =>
      paid part (List.mem_cons_of_mem _ mem)
    cases flag with
    | false => exact ⟨_, .hide rest⟩
    | true =>
      obtain ⟨shown, known⟩ := paid sub List.mem_cons_self
      exact ⟨_, .reveal (share_of_payload known) rest⟩

section Search

variable {needed : UInt32} {subs : List Fulfillment} {flags : List Bool}

theorem WellFormed.canReveal_iff {f : Fulfillment} (h : f.WellFormed) :
    f.canReveal = true ↔ ∃ shown, f.payload = .ok shown :=
  ⟨h.payload, fun ⟨_, paid⟩ => (h.written paid).canReveal⟩

theorem available_shares (wellFormed : ∀ sub ∈ subs, sub.WellFormed) :
    Threshold.available (subs.map fun sub => share sub.commitment sub) = liveWeight subs := by
  have live (sub : Fulfillment) (mem : sub ∈ subs) :
      (share sub.commitment sub).revealed.isSome = sub.canReveal := by
    rw [Bool.eq_iff_iff, (wellFormed sub mem).canReveal_iff, Option.isSome_iff_exists]
    constructor
    · rintro ⟨n, known⟩
      obtain ⟨shown, paid, _⟩ := share_revealed known
      exact ⟨shown, paid⟩
    · rintro ⟨shown, paid⟩
      exact ⟨_, share_of_payload paid⟩
  have shown : subs.filter ((fun part => part.revealed.isSome) ∘ fun sub =>
      share sub.commitment sub) = subs.filter canReveal := List.filter_congr live
  rw [Threshold.available, Threshold.totalWeight, List.filter_map, List.map_map, List.map_map,
    shown]
  rfl

theorem Sufficient.choice (wellFormed : ∀ sub ∈ subs, sub.WellFormed)
    (h : Sufficient needed subs flags) :
    ∃ length, Threshold.Choice (subs.map fun sub => share sub.commitment sub) flags length
      (revealedWeight (subs.zip flags)) :=
  choice_of_payloads h.length_eq fun sub mem =>
    (wellFormed sub (List.of_mem_zip mem).1).payload (h.live sub mem)

theorem sufficient_of_choice (wellFormed : ∀ sub ∈ subs, sub.WellFormed) {length weight : Nat}
    (choice : Threshold.Choice (subs.map fun sub => share sub.commitment sub) flags length weight)
    (enough : needed.toNat ≤ weight) : Sufficient needed subs flags := by
  obtain ⟨long, weights, shown, written, _⟩ := entries_of_choice choice
  refine ⟨long, fun sub mem => ?_, by rw [weights]; exact enough⟩
  exact (wellFormed sub (List.of_mem_zip mem).1).canReveal_iff.2 (payload_of_entries written mem)

theorem payloadShowing_of_choice (needed : UInt32) {length weight : Nat}
    (choice : Threshold.Choice (subs.map fun sub => share sub.commitment sub) flags length weight) :
    ∃ shown, payloadShowing needed subs flags = .ok shown ∧
      shown.length = Threshold.headerLength subs.length + length := by
  obtain ⟨_, _, shown, written, lengths⟩ := entries_of_choice choice
  refine ⟨_, payloadShowing_eq_ok.2 ⟨shown, written, rfl⟩, ?_⟩
  rw [List.length_append, Threshold.header_length, lengths]

theorem Revealing.choice (h : Revealing needed subs flags) {shown : Bytes}
    (paid : payloadShowing needed subs flags = .ok shown) :
    ∃ length weight,
      Threshold.Choice (subs.map fun sub => share sub.commitment sub) flags length weight ∧
        needed.toNat ≤ weight ∧ shown.length = Threshold.headerLength subs.length + length ∧
        shown.length ≤ Threshold.maxPayload := by
  obtain ⟨long, enough, bytes, written, fits⟩ := h
  obtain ⟨length, choice⟩ := choice_of_payloads long fun sub mem => payload_of_entries written mem
  obtain ⟨again, shows, total⟩ := payloadShowing_of_choice needed choice
  rw [paid] at shows
  cases shows
  refine ⟨length, _, choice, enough, total, ?_⟩
  obtain ⟨front, written', rfl⟩ := payloadShowing_eq_ok.1 paid
  rw [written] at written'
  cases written'
  rwa [List.length_append, Threshold.header_length]

theorem select_shows {length weight : Nat}
    (choice : Threshold.Choice (subs.map fun sub => share sub.commitment sub) flags length weight)
    (enough : needed.toNat ≤ weight)
    (fits : Threshold.headerLength subs.length + length ≤ Threshold.maxPayload) :
    ∃ best less,
      Threshold.select needed (subs.map fun sub => share sub.commitment sub) = .revealed best ∧
        payloadShowing needed subs best = .ok less ∧
        less.length ≤ Threshold.headerLength subs.length + length := by
  obtain ⟨best, least, sum, selected, other, le⟩ :=
    Threshold.select_of_choice choice enough (by rwa [List.length_map])
  obtain ⟨less, shows, total⟩ := payloadShowing_of_choice needed other
  exact ⟨best, less, selected, shows, by omega⟩

theorem payloadShowing_lt {others : List Bool} {shown more : Bytes}
    (long : flags.length = subs.length) (long' : others.length = subs.length)
    (shows : payloadShowing needed subs flags = .ok shown)
    (shows' : payloadShowing needed subs others = .ok more) (small : more.length < 2 ^ 64)
    (before : Threshold.Plan.flagsBefore flags others = true) : others = flags ∨ shown < more := by
  obtain ⟨front, written, rfl⟩ := payloadShowing_eq_ok.1 shows
  obtain ⟨back, written', rfl⟩ := payloadShowing_eq_ok.1 shows'
  rw [List.length_append] at small
  exact (entries_lt long long' written written' (by omega) before).imp_right List.append_left_lt

end Search

/-- A threshold that is put together has the least payload of all that show enough, unless there is
none or it is too long. -/
theorem payload_of_ofThreshold {needed : UInt32} {subs : List Fulfillment} {f : Fulfillment}
    (obtained : ∀ sub ∈ subs, sub.Obtained) (made : ofThreshold needed subs = .ok f) :
    ∃ order selection c, f = threshold Weight.one needed order selection c ∧ order.Perm subs ∧
      ((∀ flags, ¬ Sufficient needed order flags) ∧
          f.payload = .error (.insufficientThreshold needed.toNat (liveWeight order)) ∨
        ∃ flags shown, Sufficient needed order flags ∧
          payloadShowing needed order flags = .ok shown ∧
          (∀ others, Sufficient needed order others →
            ∃ more, payloadShowing needed order others = .ok more ∧ shown.length ≤ more.length) ∧
          (Threshold.maxPayload < shown.length →
            f.payload = .error (.payloadTooLarge shown.length)) ∧
          (shown.length ≤ Threshold.maxPayload → f.payload = .ok shown ∧
            (∀ others more, Sufficient needed order others →
              payloadShowing needed order others = .ok more → more.length = shown.length →
              others = flags ∨ shown < more) ∧
            ∀ i, selection.reveals i = true ↔ flags[i]? = some true)) := by
  obtain ⟨order, selection, c, rfl, perm, _⟩ := ofThreshold_eq_ok made
  have wellFormed : ∀ sub ∈ order, sub.WellFormed := fun sub mem =>
    (obtained sub (perm.mem_iff.1 mem)).wellFormed
  refine ⟨order, selection, c, rfl, perm, ?_⟩
  have selected := selection_of_ofThreshold made
  rcases Threshold.select_cases needed (order.map fun sub => share sub.commitment sub) with
    ⟨unsatisfied, short⟩ | ⟨flags, length, weight, choice, enough, best, cut⟩
  · left
    constructor
    · intro flags sufficient
      obtain ⟨length, choice⟩ := sufficient.choice wellFormed
      exact Nat.not_lt.2 sufficient.enough (short _ _ _ choice)
    · rw [selected, unsatisfied, available_shares wellFormed]
      simp only [payload]
  · right
    obtain ⟨shown, shows, total⟩ := payloadShowing_of_choice needed choice
    have sufficient := sufficient_of_choice wellFormed choice enough
    rw [List.length_map, ← total] at cut
    refine ⟨flags, shown, sufficient, shows, ?_, ?_, ?_⟩
    · intro others enough'
      obtain ⟨more, other⟩ := enough'.choice wellFormed
      obtain ⟨rest, shows', total'⟩ := payloadShowing_of_choice needed other
      have least := (best _ _ _ other enough'.enough).length_le
      exact ⟨rest, shows', by rw [total, total']; exact Nat.add_le_add_left least _⟩
    · intro large
      rw [selected, cut, if_pos large]
      simp only [payload]
    · intro fits
      rw [if_neg (Nat.not_lt.2 fits)] at cut
      refine ⟨?_, ?_, ?_⟩
      · obtain ⟨front, written, rfl⟩ := payloadShowing_eq_ok.1 shows
        rw [selected, cut]
        simp only [payload, bind_of_ok written]
        rfl
      · intro others more enough' shows' same
        obtain ⟨length', other⟩ := enough'.choice wellFormed
        obtain ⟨rest, shows'', total'⟩ := payloadShowing_of_choice needed other
        rw [shows'] at shows''
        cases shows''
        have before : Threshold.Plan.flagsBefore flags others = true := by
          rcases best _ _ _ other enough'.enough with shorter | ⟨_, before⟩
          · exact absurd shorter (by dsimp only; omega)
          · exact before
        exact payloadShowing_lt sufficient.length_eq enough'.length_eq shows shows'
          (Nat.lt_of_le_of_lt (same.trans_le fits) (by decide)) before
      · intro i
        rw [selected, cut, Selection.reveals, List.getD_eq_getElem?_getD]
        cases flags[i]? with
        | none => simp
        | some flag => simp

theorem payload_of_ofThreshold_sample : ∃ f, (∀ sub ∈ sampleParts, sub.Obtained) ∧
    ofThreshold 2 sampleParts = .ok f ∧
    ∃ order selection c, f = threshold Weight.one 2 order selection c ∧ order.Perm sampleParts ∧
      ((∀ flags, ¬ Sufficient 2 order flags) ∧
          f.payload = .error (.insufficientThreshold (2 : UInt32).toNat (liveWeight order)) ∨
        ∃ flags shown, Sufficient 2 order flags ∧
          payloadShowing 2 order flags = .ok shown ∧
          (∀ others, Sufficient 2 order others →
            ∃ more, payloadShowing 2 order others = .ok more ∧ shown.length ≤ more.length) ∧
          (Threshold.maxPayload < shown.length →
            f.payload = .error (.payloadTooLarge shown.length)) ∧
          (shown.length ≤ Threshold.maxPayload → f.payload = .ok shown ∧
            (∀ others more, Sufficient 2 order others →
              payloadShowing 2 order others = .ok more → more.length = shown.length →
              others = flags ∨ shown < more) ∧
            ∀ i, selection.reveals i = true ↔ flags[i]? = some true)) := by
  obtain ⟨c, made⟩ := ofThreshold_sampleParts
  exact ⟨_, built_sampleParts, made, payload_of_ofThreshold built_sampleParts made⟩

end Fulfillment

end CryptoConditions
