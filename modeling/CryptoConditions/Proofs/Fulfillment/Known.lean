import CryptoConditions.Fulfillment.Validation
import CryptoConditions.Proofs.Fulfillment.Minimal

/-! Knowing more. Where a fulfillment stands in the place of a condition that was all that was
known, at whatever level, nothing is lost: the condition is the same, what held still holds, and
what could be revealed still can, in no more bytes. Weights and lengths are carried up the tree
together, since a threshold counts those parts only that its search can reveal. -/

namespace CryptoConditions.Fulfillment

/-- The second tree is the first one with fulfillments in the place of some conditions. What
follows from the parts, the selections and conditions kept in the nodes and the order of parts
that count the same, may differ. -/
inductive Supplied : Fulfillment → Fulfillment → Prop where
  | same (f : Fulfillment) : Supplied f f
  | found {known : Commitment} {g : Fulfillment} (condition : g.condition = known.condition)
      (weight : g.weight = known.weight) : Supplied (.withheld known) g
  | prefixed {w : Weight} {lead : Bytes} {sub other : Fulfillment} (c d : Condition)
      (part : Supplied sub other) : Supplied (.prefixed w lead sub c) (.prefixed w lead other d)
  | threshold {w : Weight} {needed : UInt32} {subs order others : List Fulfillment}
      (s t : Selection) (c d : Condition) (length : subs.length = order.length)
      (parts : ∀ pair ∈ subs.zip order, Supplied pair.1 pair.2) (perm : order.Perm others) :
      Supplied (.threshold w needed subs s c) (.threshold w needed others t d)

/-- Thresholds at all levels show what the search selects for their parts. -/
inductive Searched : Fulfillment → Prop where
  | preimage (w : Weight) (bytes : Bytes) : Searched (.preimage w bytes)
  | prefixed {w : Weight} {lead : Bytes} {sub : Fulfillment} {c : Condition}
      (part : Searched sub) : Searched (.prefixed w lead sub c)
  | ed25519 (w : Weight) (key : Ed25519.PublicKey) (signature : Option (Octets 64)) :
      Searched (.ed25519 w key signature)
  | rsa (w : Weight) (key : Rsa.PublicKey) (long : Rsa.minLength ≤ key.modulus.length)
      (signature : Option (Octets key.modulus.length)) : Searched (.rsa w key long signature)
  | threshold {w : Weight} {needed : UInt32} {subs : List Fulfillment} {selection : Selection}
      {c : Condition} (parts : ∀ sub ∈ subs, Searched sub)
      (selected : selection =
        Threshold.select needed (subs.map fun sub => share sub.commitment sub)) :
      Searched (.threshold w needed subs selection c)
  | timeout (w : Weight) (expiry : UInt64) : Searched (.timeout w expiry)
  | withheld (commitment : Commitment) : Searched (.withheld commitment)

theorem Searched.withWeight {f : Fulfillment} (h : f.Searched) (w : Weight) :
    (f.withWeight w).Searched := by
  cases h with
  | preimage _ bytes => exact .preimage w bytes
  | prefixed part => exact .prefixed part
  | ed25519 _ key signature => exact .ed25519 w key signature
  | rsa _ key long signature => exact .rsa w key long signature
  | threshold parts selected => exact .threshold parts selected
  | timeout _ expiry => exact .timeout w expiry
  | withheld commitment => exact .withheld _

theorem Constructed.searched {f : Fulfillment} (built : f.Constructed) : f.Searched := by
  induction built with
  | given known => exact known.elim
  | preimage bytes => exact .preimage _ bytes
  | prefixed _ made ih =>
    obtain ⟨_, rfl⟩ := ofPrefix_eq_ok.1 made
    exact .prefixed ih
  | ed25519 made =>
    obtain ⟨_, rfl, _⟩ := ofEd25519_eq_ok made
    exact .ed25519 _ _ _
  | rsa made =>
    obtain ⟨_, _, rfl, _⟩ := ofRsa_eq_ok made
    exact .rsa _ _ _ _
  | threshold _ made ih =>
    obtain ⟨order, _, _, rfl, perm, _⟩ := ofThreshold_eq_ok made
    exact .threshold (fun sub mem => ih sub (perm.mem_iff.1 mem)) (selection_of_ofThreshold made)
  | timeout expiry => exact .timeout _ expiry
  | withheld _ w key => exact .withheld _
  | reduced _ _ => exact .withheld _
  | weighted w _ ih => exact ih.withWeight w

structure Gains (f g : Fulfillment) : Prop where
  weight_eq : g.weight = f.weight
  condition_eq : g.condition = f.condition
  validates : ∀ message, f.validate message = true → g.validate message = true
  reveals : f.canReveal = true → g.canReveal = true
  shortens : ∀ shown, f.payload = .ok shown →
    ∃ less, g.payload = .ok less ∧ less.length ≤ shown.length

namespace Gains

theorem refl (f : Fulfillment) : Gains f f where
  weight_eq := rfl
  condition_eq := rfl
  validates := fun _ holds => holds
  reveals := fun can => can
  shortens := fun shown paid => ⟨shown, paid, Nat.le_refl _⟩

theorem of_payload {f g : Fulfillment} (left : f.WellFormed) (right : g.WellFormed)
    (weight : g.weight = f.weight) (condition : g.condition = f.condition)
    (validates : ∀ message, f.validate message = true → g.validate message = true)
    (shortens : ∀ shown, f.payload = .ok shown →
      ∃ less, g.payload = .ok less ∧ less.length ≤ shown.length) : Gains f g where
  weight_eq := weight
  condition_eq := condition
  validates := validates
  reveals := fun can => by
    obtain ⟨shown, paid⟩ := left.payload can
    obtain ⟨less, paid', _⟩ := shortens shown paid
    exact right.canReveal_iff.2 ⟨less, paid'⟩
  shortens := shortens

theorem share {sub other : Fulfillment} (gains : Gains sub other) {n : Nat}
    (shown : (Fulfillment.share sub.commitment sub).revealed = some n) :
    ∃ less ≤ n, (Fulfillment.share other.commitment other).revealed = some less := by
  obtain ⟨payload, paid, rfl⟩ := share_revealed shown
  obtain ⟨less, paid', le⟩ := gains.shortens payload paid
  refine ⟨_, ?_, share_of_payload paid'⟩
  rw [frame_length, frame_length]
  exact Nat.add_le_add_left (Wire.octetsLength_mono le) 2

end Gains

section Parts

variable {subs order others : List Fulfillment}

theorem choice_of_gains (length : subs.length = order.length)
    (gains : ∀ pair ∈ subs.zip order, Gains pair.1 pair.2) {flags : List Bool} {long weight : Nat}
    (choice : Threshold.Choice (subs.map fun sub => share sub.commitment sub) flags long weight) :
    ∃ short ≤ long,
      Threshold.Choice (order.map fun sub => share sub.commitment sub) flags short weight := by
  induction subs generalizing order flags long weight with
  | nil =>
    obtain rfl := List.eq_nil_of_length_eq_zero length.symm
    exact ⟨long, Nat.le_refl _, choice⟩
  | cons sub subs ih =>
    obtain ⟨other, order, rfl⟩ := List.exists_cons_of_length_eq_add_one length.symm
    rw [List.zip_cons_cons, List.forall_mem_cons] at gains
    obtain ⟨first, rest⟩ := gains
    rw [List.map_cons] at choice
    cases choice with
    | hide tail =>
      obtain ⟨short, le, tail'⟩ := ih (Nat.succ.inj length) rest tail
      refine ⟨_, ?_, .hide tail'⟩
      have same : Threshold.hiddenLength other.commitment =
          Threshold.hiddenLength sub.commitment := by
        simp only [Threshold.hiddenLength, commitment, first.weight_eq, first.condition_eq]
      exact Nat.add_le_add (Nat.le_of_eq same) le
    | @reveal _ _ _ _ _ binary shown tail =>
      obtain ⟨short, le, tail'⟩ := ih (Nat.succ.inj length) rest tail
      obtain ⟨less, fewer, shown'⟩ := first.share shown
      have weights : (share sub.commitment sub).part.weight =
          (share other.commitment other).part.weight := first.weight_eq.symm
      rw [weights]
      refine ⟨_, ?_, .reveal shown' tail'⟩
      have entry : Threshold.revealedLength other.commitment less ≤
          Threshold.revealedLength sub.commitment binary := by
        simp only [Threshold.revealedLength, commitment, first.weight_eq]
        exact Nat.add_le_add_right (Nat.add_le_add_left (Wire.octetsLength_mono fewer) _) 1
      exact Nat.add_le_add entry le

theorem validWeight_le_of_gains (length : subs.length = order.length)
    (gains : ∀ pair ∈ subs.zip order, Gains pair.1 pair.2) (message : Bytes) :
    validWeight subs message ≤ validWeight order message := by
  induction subs generalizing order with
  | nil => simp only [validWeight, Nat.zero_le]
  | cons sub subs ih =>
    obtain ⟨other, order, rfl⟩ := List.exists_cons_of_length_eq_add_one length.symm
    rw [List.zip_cons_cons, List.forall_mem_cons] at gains
    obtain ⟨first, rest⟩ := gains
    rw [validWeight, validWeight]
    refine Nat.add_le_add ?_ (ih (Nat.succ.inj length) rest)
    split
    · next holds =>
      rw [Bool.and_eq_true] at holds
      rw [first.reveals holds.1, first.validates message holds.2, first.weight_eq]
      exact Nat.le_refl _
    · exact Nat.zero_le _

theorem validWeight_eq_sum (subs : List Fulfillment) (message : Bytes) :
    validWeight subs message = (subs.map fun sub =>
      if sub.canReveal && sub.validate message then sub.weight.toNat else 0).sum := by
  induction subs with
  | nil => rfl
  | cons sub subs ih => rw [validWeight, ih, List.map_cons, List.sum_cons]

theorem validWeight_perm (perm : order.Perm others) (message : Bytes) :
    validWeight order message = validWeight others message := by
  rw [validWeight_eq_sum, validWeight_eq_sum, (perm.map _).sum_nat]

theorem map_share_of_gains (length : subs.length = order.length)
    (gains : ∀ pair ∈ subs.zip order, Gains pair.1 pair.2) :
    (order.map commitment).map Commitment.share = (subs.map commitment).map Commitment.share := by
  rw [List.map_map, List.map_map]
  refine (map_eq_map_of_zip length fun pair mem => ?_).symm
  rw [Function.comp_apply, Function.comp_apply, share_commitment, share_commitment,
    (gains pair mem).weight_eq, (gains pair mem).condition_eq]

variable {w : Weight} {needed : UInt32} {s t : Selection} {c d : Condition}

theorem condition_of_gains (left : Assembled needed subs s c) (right : Assembled needed others t d)
    (length : subs.length = order.length)
    (gains : ∀ pair ∈ subs.zip order, Gains pair.1 pair.2) (perm : order.Perm others) : d = c := by
  have alike : ((others.map commitment).map Commitment.share).Perm
      ((subs.map commitment).map Commitment.share) := by
    rw [← map_share_of_gains length gains]
    exact ((perm.map _).map _).symm
  have conditions := right.condition_eq
  rw [Threshold.condition_congr needed
    (Commitment.map_share_of_sorted alike right.sorted left.sorted), left.condition_eq]
    at conditions
  exact (Except.ok.inj conditions).symm

theorem select_of_gains {flags : List Bool} (revealing : Revealing needed subs flags)
    (length : subs.length = order.length) (gains : ∀ pair ∈ subs.zip order, Gains pair.1 pair.2)
    (perm : order.Perm others) {shown : Bytes}
    (paid : payloadShowing needed subs flags = .ok shown) :
    ∃ best less,
      Threshold.select needed (others.map fun sub => share sub.commitment sub) = .revealed best ∧
        payloadShowing needed others best = .ok less ∧ less.length ≤ shown.length := by
  -- What the first threshold reveals is a choice for the second one, so the search ends with one
  -- that is no longer.
  obtain ⟨long, weight, choice, enough, total, fits⟩ := revealing.choice paid
  obtain ⟨short, le, choice⟩ := choice_of_gains length gains choice
  obtain ⟨arranged, choice⟩ := choice.perm (perm.map _)
  have count : others.length = subs.length := perm.length_eq.symm.trans length.symm
  obtain ⟨best, less, selected, shows, le'⟩ :=
    select_shows choice enough (by rw [count]; omega)
  exact ⟨best, less, selected, shows, by rw [count] at le'; omega⟩

end Parts

theorem Gains.prefixed {w : Weight} {lead : Bytes} {sub other : Fulfillment} {c d : Condition}
    (left : (prefixed w lead sub c).WellFormed) (right : (prefixed w lead other d).WellFormed)
    (gains : Gains sub other) : Gains (prefixed w lead sub c) (prefixed w lead other d) := by
  have conditions : d = c := by
    cases left with
    | prefixed _ made =>
      cases right with
      | prefixed _ made' =>
        obtain ⟨_, same⟩ := ofPrefix_eq_ok.1 made
        obtain ⟨_, same'⟩ := ofPrefix_eq_ok.1 made'
        rw [(Fulfillment.prefixed.inj same).2.2.2, (Fulfillment.prefixed.inj same').2.2.2,
          gains.condition_eq]
  refine .of_payload left right rfl conditions ?_ ?_
  · intro message holds
    simp only [validate] at holds ⊢
    exact gains.validates _ holds
  · intro shown paid
    obtain ⟨inner, below, rfl⟩ := payload_prefixed_eq_ok.1 paid
    obtain ⟨less, paid', le⟩ := gains.shortens inner below
    refine ⟨_, payload_prefixed_eq_ok.2 ⟨less, paid', rfl⟩, ?_⟩
    rw [List.length_append, List.length_append, frame_length, frame_length]
    exact Nat.add_le_add_left (Nat.add_le_add_left (Wire.octetsLength_mono le) 2) _

theorem Gains.threshold {w : Weight} {needed : UInt32} {subs order others : List Fulfillment}
    {s t : Selection} {c d : Condition} (left : (threshold w needed subs s c).WellFormed)
    (right : (threshold w needed others t d).WellFormed)
    (selected : t =
      Threshold.select needed (others.map fun sub => Fulfillment.share sub.commitment sub))
    (length : subs.length = order.length)
    (gains : ∀ pair ∈ subs.zip order, Gains pair.1 pair.2) (perm : order.Perm others) :
    Gains (threshold w needed subs s c) (threshold w needed others t d) := by
  have conditions := condition_of_gains left.assembled right.assembled length gains perm
  refine .of_payload left right rfl conditions ?_ ?_
  · intro message holds
    simp only [validate, decide_eq_true_eq] at holds ⊢
    rw [← validWeight_perm perm]
    exact Nat.le_trans holds (validWeight_le_of_gains length gains message)
  · intro shown paid
    obtain ⟨flags, rfl, paid⟩ := payload_threshold_eq_ok.1 paid
    obtain ⟨best, less, found, shows, le⟩ :=
      select_of_gains (left.assembled.revealing flags rfl) length gains perm paid
    exact ⟨less, payload_threshold_eq_ok.2 ⟨best, selected.trans found, shows⟩, le⟩

theorem Supplied.gains {f g : Fulfillment} (supplied : f.Supplied g) (left : f.WellFormed)
    (right : g.WellFormed) (searched : g.Searched) : Gains f g := by
  induction supplied with
  | same f => exact .refl f
  | found condition weight =>
    refine ⟨weight, condition, fun message holds => ?_, nofun, fun shown paid => ?_⟩
    · simp [validate] at holds
    · simp [payload] at paid
  | prefixed c d part ih =>
    refine .prefixed left right ?_
    cases left with
    | prefixed left _ =>
      cases right with
      | prefixed right _ =>
        cases searched with
        | prefixed searched => exact ih left right searched
  | @threshold w needed subs order others s t c d length parts perm ih =>
    cases searched with
    | threshold searched selected =>
      refine .threshold left right selected length (fun pair mem => ?_) perm
      have known := (List.of_mem_zip mem).1
      have inside := perm.mem_iff.1 (List.of_mem_zip mem).2
      exact ih pair mem (left.parts _ known) (right.parts _ inside) (searched _ inside)

/-- Knowing more never hurts. Where two fulfillments that are put together differ only in that the
second one has fulfillments in the place of conditions of the first one, of the same condition and
weight, they have one condition; the second one holds wherever the first one does; and where the
first one can be revealed so can the second, in a payload that is no longer. -/
theorem gains_of_supplied {f g : Fulfillment} (built : f.Constructed) (built' : g.Constructed)
    (supplied : f.Supplied g) :
    g.condition = f.condition ∧
      (∀ message, f.validate message = true → g.validate message = true) ∧
      (f.canReveal = true → g.canReveal = true ∧
        ∃ shown less, f.payload = .ok shown ∧ g.payload = .ok less ∧
          less.length ≤ shown.length) := by
  have gains := supplied.gains built.wellFormed built'.wellFormed built'.searched
  refine ⟨gains.condition_eq, gains.validates, fun can => ⟨gains.reveals can, ?_⟩⟩
  obtain ⟨shown, paid⟩ := built.wellFormed.payload can
  obtain ⟨less, paid', le⟩ := gains.shortens shown paid
  exact ⟨shown, less, paid, paid', le⟩

def sampleKnown : List Fulfillment :=
  [preimage sampleWeight [1], preimage Weight.one []]

theorem ofThreshold_sampleKnown : ∃ c, ofThreshold 2 sampleKnown =
    .ok (.threshold Weight.one 2 sampleKnown (.revealed [true, true]) c) := by
  obtain ⟨c, conditioned⟩ := condition_sampleParts
  have selected : Threshold.select 2 (sampleKnown.map fun sub => share sub.commitment sub) =
      .revealed [true, true] := by decide +kernel
  have sorted : (sampleKnown.map commitment).Pairwise fun a b => a.precedes b = true := by
    simp [sampleKnown, Commitment.precedes_iff]
    decide
  have made := @ofThreshold_of_sorted 2 sampleKnown c rfl sorted conditioned
  rw [selected] at made
  exact ⟨c, made⟩

theorem gains_of_supplied_sample : ∃ f g : Fulfillment, f.Constructed ∧ g.Constructed ∧
    f.Supplied g ∧ f ≠ g ∧ f.canReveal = true ∧
    g.condition = f.condition ∧
      (∀ message, f.validate message = true → g.validate message = true) ∧
      g.canReveal = true ∧ ∃ shown less, f.payload = .ok shown ∧ g.payload = .ok less ∧
        less.length ≤ shown.length := by
  obtain ⟨c, made⟩ := ofThreshold_sampleParts
  obtain ⟨d, made'⟩ := ofThreshold_sampleKnown
  have known : ∀ sub ∈ sampleKnown, sub.Constructed :=
    List.forall_mem_cons.2 ⟨.weighted sampleWeight (.preimage [1]),
      List.forall_mem_singleton.2 (.preimage [])⟩
  have built : Constructed (threshold Weight.one 2 sampleParts (.revealed [true, false]) c) :=
    .threshold built_sampleParts made
  have built' := Built.threshold known made'
  have parts : ∀ pair ∈ sampleParts.zip sampleKnown, Supplied pair.1 pair.2 :=
    List.forall_mem_cons.2 ⟨.same _, List.forall_mem_singleton.2 (.found rfl rfl)⟩
  have supplied := @Supplied.threshold Weight.one 2 sampleParts sampleKnown _
    (.revealed [true, false]) (.revealed [true, true]) c d rfl parts (List.Perm.refl _)
  obtain ⟨condition, validates, reveals⟩ := gains_of_supplied built built' supplied
  exact ⟨_, _, built, built', supplied, by simp, rfl, condition, validates, reveals rfl⟩

end CryptoConditions.Fulfillment
