import CryptoConditions.Proofs.Fulfillment.Built

/-! What comes out at the other end of the wire. Weights outside a threshold,
exponents of keys, secrets that are not revealed and keys beside a condition are
not written; all that the condition and the payload depend on is. -/

namespace CryptoConditions.Fulfillment

/-- The fulfillments in the written form of a fulfillment, with their levels below it. -/
inductive Carries : Fulfillment → Nat → Fulfillment → Prop where
  | root (f : Fulfillment) : Carries f 0 f
  | prefixed {w : Weight} {lead : Bytes} {sub g : Fulfillment} {c : Condition} {depth : Nat}
      (inner : Carries sub depth g) : Carries (.prefixed w lead sub c) (depth + 1) g
  | threshold {w : Weight} {needed : UInt32} {subs : List Fulfillment} {flags : List Bool}
      {sub g : Fulfillment} {c : Condition} {depth : Nat}
      (revealed : (sub, true) ∈ subs.zip flags) (inner : Carries sub depth g) :
      Carries (.threshold w needed subs (.revealed flags) c) (depth + 1) g

mutual

def shownDepth : Fulfillment → Nat
  | prefixed _ _ sub _ => sub.shownDepth + 1
  | threshold _ _ subs (.revealed flags) _ => entriesDepth subs flags
  | _ => 0

def entriesDepth : List Fulfillment → List Bool → Nat
  | sub :: subs, true :: flags => max (sub.shownDepth + 1) (entriesDepth subs flags)
  | _ :: subs, false :: flags => entriesDepth subs flags
  | _, _ => 0

end

theorem entriesDepth_le_iff {subs : List Fulfillment} {flags : List Bool} {depth : Nat} :
    entriesDepth subs flags ≤ depth ↔
      ∀ sub, (sub, true) ∈ subs.zip flags → sub.shownDepth < depth := by
  induction subs generalizing flags with
  | nil => simp [entriesDepth]
  | cons sub subs ih =>
    cases flags with
    | nil => simp [entriesDepth]
    | cons flag flags =>
      cases flag with
      | false => simp [entriesDepth, ih]
      | true =>
        simp only [entriesDepth, Nat.max_le, ih, Nat.succ_le_iff, List.zip_cons_cons, List.mem_cons,
          Prod.mk.injEq, and_true, forall_eq_or_imp]

theorem Carries.le_shownDepth {f g : Fulfillment} {depth : Nat} (carries : f.Carries depth g) :
    depth ≤ f.shownDepth := by
  induction carries with
  | root => exact Nat.zero_le _
  | prefixed _ ih =>
    rw [shownDepth]
    omega
  | threshold revealed _ ih =>
    rw [shownDepth]
    have below := entriesDepth_le_iff.1 (Nat.le_refl _) _ revealed
    omega

theorem shownDepth_le_of_inner {f : Fulfillment} {bound : Nat}
    (inner : ∀ sub : Fulfillment, (∀ depth g, sub.Carries depth g → f.Carries (depth + 1) g) →
      sub.shownDepth < bound) : f.shownDepth ≤ bound := by
  cases f with
  | prefixed w lead sub c =>
    rw [shownDepth]
    exact inner sub fun _ _ carries => .prefixed carries
  | threshold w needed subs selection c =>
    cases selection with
    | revealed flags =>
      rw [shownDepth, entriesDepth_le_iff]
      intro sub revealed
      exact inner sub fun _ _ carries => .threshold revealed carries
    | _ => simp [shownDepth]
  | _ => simp [shownDepth]

theorem shownDepth_le {f : Fulfillment} {bound : Nat}
    (all : ∀ depth g, f.Carries depth g → depth ≤ bound) : f.shownDepth ≤ bound := by
  induction bound generalizing f with
  | zero =>
    refine shownDepth_le_of_inner fun sub carried => ?_
    have impossible := all 1 sub (carried 0 sub (.root sub))
    omega
  | succ bound ih =>
    refine shownDepth_le_of_inner fun sub carried => ?_
    have below : sub.shownDepth ≤ bound :=
      ih fun depth g carries => Nat.le_of_succ_le_succ (all _ g (carried depth g carries))
    omega

theorem carries_le_iff {f : Fulfillment} {bound : Nat} :
    (∀ depth g, f.Carries depth g → depth ≤ bound) ↔ f.shownDepth ≤ bound := by
  constructor
  · exact shownDepth_le
  · intro le depth g carries
    exact Nat.le_trans carries.le_shownDepth le

/-- The same in all that a payload shows. -/
inductive ShownAlike : Fulfillment → Fulfillment → Prop where
  | simple {f d : Fulfillment} (flat : f.type.isCompound = false)
      (same : f.condition = d.condition) : ShownAlike f d
  | prefixed {w w' : Weight} {lead : Bytes} {sub sub' : Fulfillment} {c : Condition}
      (inner : ShownAlike sub sub') : ShownAlike (.prefixed w lead sub c) (.prefixed w' lead sub' c)
  | threshold {w w' : Weight} {needed : UInt32} {subs subs' : List Fulfillment} {flags : List Bool}
      {c : Condition}
      (shares : (subs.map fun sub => sub.commitment.share) =
        subs'.map fun sub => sub.commitment.share)
      (inner : ∀ (i : Nat) sub sub', flags[i]? = some true → subs[i]? = some sub →
        subs'[i]? = some sub' → ShownAlike sub sub') :
      ShownAlike (.threshold w needed subs (.revealed flags) c)
        (.threshold w' needed subs' (.revealed flags) c)

mutual

/-- What the written form is read as. -/
def received : Fulfillment → Fulfillment
  | preimage _ bytes => preimage Weight.one bytes
  | prefixed _ lead sub c => prefixed Weight.one lead sub.received c
  | ed25519 _ key signature => ed25519 Weight.one key signature
  | rsa _ key long signature => rsa Weight.one ⟨key.modulus, Rsa.publicExponent⟩ long signature
  | threshold _ needed subs selection c =>
    match selection with
    | .revealed flags => threshold Weight.one needed (receivedParts subs flags) (.revealed flags) c
    | selection => threshold Weight.one needed subs selection c
  | timeout _ expiry => timeout Weight.one expiry
  | withheld commitment => withheld ⟨commitment.condition, Weight.one, none⟩

def receivedParts : List Fulfillment → List Bool → List Fulfillment
  | sub :: subs, true :: flags => sub.received.withWeight sub.weight :: receivedParts subs flags
  | sub :: subs, false :: flags =>
    withheld ⟨sub.condition, sub.weight, none⟩ :: receivedParts subs flags
  | _, _ => []

end

@[simp] theorem received_withWeight (w : Weight) (f : Fulfillment) :
    (f.withWeight w).received = f.received := by
  cases f with
  | threshold _ _ _ selection _ => cases selection <;> simp only [withWeight, received]
  | _ => simp only [withWeight, received]

@[simp] theorem type_received (f : Fulfillment) : f.received.type = f.type := by
  cases f with
  | threshold _ _ _ selection _ => cases selection <;> rfl
  | _ => rfl

@[simp] theorem condition_received (f : Fulfillment) : f.received.condition = f.condition := by
  cases f with
  | threshold _ _ _ selection _ => cases selection <;> rfl
  | _ => rfl

@[simp] theorem canReveal_received (f : Fulfillment) : f.received.canReveal = f.canReveal := by
  cases f with
  | prefixed _ _ sub _ => exact canReveal_received sub
  | threshold _ _ _ selection _ => cases selection <;> rfl
  | _ => rfl

theorem share_receivedParts {subs : List Fulfillment} {flags : List Bool}
    (long : flags.length = subs.length) :
    ((receivedParts subs flags).map fun sub => sub.commitment.share) =
      subs.map fun sub => sub.commitment.share := by
  induction subs generalizing flags with
  | nil => rfl
  | cons sub subs ih =>
    obtain ⟨flag, flags, rfl⟩ := List.exists_cons_of_length_eq_add_one long
    have rest := ih (Nat.succ.inj long)
    cases flag with
    | false =>
      have head : (withheld ⟨sub.condition, sub.weight, none⟩).commitment.share =
          sub.commitment.share := rfl
      rw [receivedParts, List.map_cons, List.map_cons, rest, head]
    | true =>
      have head : (sub.received.withWeight sub.weight).commitment.share =
          sub.commitment.share := by
        rw [share_commitment, share_commitment, weight_withWeight, condition_withWeight,
          condition_received]
      rw [receivedParts, List.map_cons, List.map_cons, rest, head]

theorem length_receivedParts {subs : List Fulfillment} {flags : List Bool}
    (long : flags.length = subs.length) : (receivedParts subs flags).length = subs.length := by
  have lengths := congrArg List.length (share_receivedParts long)
  rwa [List.length_map, List.length_map] at lengths

theorem revealedWeight_receivedParts {subs : List Fulfillment} {flags : List Bool} :
    revealedWeight ((receivedParts subs flags).zip flags) = revealedWeight (subs.zip flags) := by
  induction subs generalizing flags with
  | nil => simp [receivedParts]
  | cons sub subs ih =>
    cases flags with
    | nil => simp
    | cons flag flags =>
      have rest := @ih flags
      rw [revealedWeight, revealedWeight] at rest
      cases flag with
      | false => simpa [receivedParts, revealedWeight] using rest
      | true => simpa [receivedParts, revealedWeight] using rest

theorem entries_receivedParts {subs : List Fulfillment} {flags : List Bool} {bytes : Bytes}
    (same : ∀ sub shown, (sub, true) ∈ subs.zip flags → sub.payload = .ok shown →
      sub.received.payload = .ok shown)
    (written : entries subs flags = .ok bytes) :
    entries (receivedParts subs flags) flags = .ok bytes := by
  induction subs generalizing flags bytes with
  | nil => exact written
  | cons sub subs ih =>
    cases flags with
    | nil => exact written
    | cons flag flags =>
      have others {bytes : Bytes} := @ih flags bytes fun part shown mem =>
        same part shown (List.mem_cons_of_mem _ mem)
      cases flag with
      | false =>
        obtain ⟨rest, tail, rfl⟩ := entries_false.1 written
        exact entries_false.2 ⟨rest, others tail, rfl⟩
      | true =>
        obtain ⟨shown, rest, paid, tail, rfl⟩ := entries_true.1 written
        refine entries_true.2 ⟨shown, rest, ?_, others tail, ?_⟩
        · rw [payload_withWeight]
          exact same sub shown List.mem_cons_self paid
        · simp [Threshold.revealedEntry, commitment]

theorem Assembled.received {needed : UInt32} {subs : List Fulfillment} {flags : List Bool}
    {c : Condition} (h : Assembled needed subs (.revealed flags) c)
    (same : ∀ sub shown, (sub, true) ∈ subs.zip flags → sub.payload = .ok shown →
      sub.received.payload = .ok shown) :
    Assembled needed (receivedParts subs flags) (.revealed flags) c := by
  obtain ⟨long, enough, shown, written, fits⟩ := h.revealing flags rfl
  have lengths := length_receivedParts long
  have shares : (subs.map commitment).map Commitment.share =
      ((receivedParts subs flags).map commitment).map Commitment.share := by
    rw [List.map_map, List.map_map]
    exact (share_receivedParts long).symm
  refine ⟨?_, Commitment.pairwise_precedes_congr shares h.sorted, ?_, ?_⟩
  · rw [lengths]
    exact h.shape
  · rw [← Threshold.condition_congr needed shares]
    exact h.condition_eq
  · intro found revealed
    cases revealed
    refine ⟨by rw [lengths, long], ?_, shown, entries_receivedParts same written, ?_⟩
    · rw [revealedWeight_receivedParts]
      exact enough
    · rw [lengths]
      exact fits

theorem Written.payload_received {f : Fulfillment} {shown : Bytes} (h : f.Written shown) :
    f.received.payload = .ok shown := by
  induction h with
  | prefixed made inner ih =>
    rw [received]
    exact payload_prefixed_eq_ok.2 ⟨_, ih, by rw [type_received]⟩
  | threshold parts assembled written inner ih =>
    have long := (assembled.revealing _ rfl).length_eq
    rw [received]
    exact payload_revealed_eq_ok.2
      ⟨_, entries_receivedParts ih written, by rw [length_receivedParts long]⟩
  | _ => simp only [received, Fulfillment.payload]

theorem getElem?_receivedParts {subs : List Fulfillment} {flags : List Bool} {i : Nat}
    {sub sub' : Fulfillment} (revealed : flags[i]? = some true) (here : subs[i]? = some sub)
    (there : (receivedParts subs flags)[i]? = some sub') :
    sub' = sub.received.withWeight sub.weight := by
  induction subs generalizing flags i with
  | nil => cases here
  | cons first subs ih =>
    cases flags with
    | nil => cases revealed
    | cons flag flags =>
      cases i with
      | zero =>
        cases here
        cases revealed
        cases there
        rfl
      | succ i =>
        rw [List.getElem?_cons_succ] at revealed here
        cases flag with
        | false => exact ih revealed here there
        | true => exact ih revealed here there

theorem ShownAlike.withWeight {f d : Fulfillment} (alike : ShownAlike f d) (w : Weight) :
    ShownAlike f (d.withWeight w) := by
  cases alike with
  | simple flat same => exact .simple flat (by rw [same, condition_withWeight])
  | prefixed inner => exact .prefixed inner
  | threshold shares inner => exact .threshold shares inner

theorem Written.shownAlike_received {f : Fulfillment} {shown : Bytes} (h : f.Written shown) :
    ShownAlike f f.received := by
  induction h with
  | prefixed made inner ih => exact .prefixed ih
  | @threshold w needed subs flags c bytes parts assembled written inner ih =>
    refine .threshold (share_receivedParts (assembled.revealing flags rfl).length_eq).symm ?_
    intro i sub sub' revealed here there
    have mem : (sub, true) ∈ subs.zip flags :=
      List.mem_of_getElem? (List.getElem?_zip_eq_some.2 ⟨here, revealed⟩)
    obtain ⟨shown, paid⟩ := payload_of_entries written mem
    rw [getElem?_receivedParts revealed here there]
    exact (ih sub shown mem paid).withWeight _
  | _ => exact .simple rfl rfl

end CryptoConditions.Fulfillment
