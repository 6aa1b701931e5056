import CryptoConditions.Proofs.Fulfillment.Invariant
import CryptoConditions.Proofs.Fulfillment.Outcome
import CryptoConditions.Proofs.Fulfillment.Shown
import CryptoConditions.Proofs.Threshold.Headroom
import CryptoConditions.Proofs.Threshold.Unanimous

/-! What holds, and whether it can be shown. A threshold counts the parts that can be revealed, so
where it holds there is a choice of parts with enough weight; what is left to fail is the limit on
its payload. A threshold around a fulfillment counts it only if it can be revealed. -/

namespace CryptoConditions.Fulfillment

/-- Can be revealed, or would be if the least payload were not too long. -/
def Presentable (f : Fulfillment) : Prop :=
  f.canReveal = true ∨
    ∃ length, Threshold.maxPayload < length ∧ f.payload = .error (.payloadTooLarge length)

section Parts

variable {subs : List Fulfillment}

theorem liveWeight_cons (sub : Fulfillment) (subs : List Fulfillment) :
    liveWeight (sub :: subs) =
      (if sub.canReveal then sub.weight.toNat else 0) + liveWeight subs := by
  rw [liveWeight, liveWeight, List.filter_cons]
  split
  · rw [List.map_cons, List.sum_cons]
  · rw [Nat.zero_add]

theorem validWeight_le_liveWeight (subs : List Fulfillment) (message : Bytes) :
    validWeight subs message ≤ liveWeight subs := by
  induction subs with
  | nil => exact Nat.le_refl 0
  | cons sub subs ih =>
    rw [validWeight, liveWeight_cons]
    refine Nat.add_le_add ?_ ih
    cases sub.canReveal with
    | false => exact Nat.le_refl 0
    | true => rw [Bool.true_and, if_pos rfl]; split <;> omega

theorem revealedWeight_live (subs : List Fulfillment) :
    revealedWeight (subs.zip (subs.map canReveal)) = liveWeight subs := by
  rw [← List.map_prod_left_eq_zip, revealedWeight, List.filter_map, List.map_map]
  rfl

theorem sufficient_of_validWeight {needed : UInt32} {message : Bytes}
    (enough : needed.toNat ≤ validWeight subs message) :
    Sufficient needed subs (subs.map canReveal) where
  length_eq := List.length_map _
  live := fun sub mem => by
    rw [← List.map_prod_left_eq_zip, List.mem_map] at mem
    obtain ⟨_, _, same⟩ := mem
    obtain ⟨rfl, can⟩ := Prod.mk.inj same
    exact can
  enough := by
    rw [revealedWeight_live]
    exact Nat.le_trans enough (validWeight_le_liveWeight subs message)

theorem presentable_of_select {w : Weight} {needed : UInt32} {c : Condition} {message : Bytes}
    (wellFormed : ∀ sub ∈ subs, sub.WellFormed)
    (enough : needed.toNat ≤ validWeight subs message) :
    (threshold w needed subs
      (Threshold.select needed (subs.map fun sub => share sub.commitment sub)) c).Presentable := by
  have sufficient := sufficient_of_validWeight enough
  obtain ⟨_, choice⟩ := sufficient.choice wellFormed
  rcases Threshold.select_cases needed (subs.map fun sub => share sub.commitment sub) with
    ⟨_, short⟩ | ⟨flags, length, _, _, _, _, cut⟩
  · exact absurd (short _ _ _ choice) (Nat.not_lt.2 sufficient.enough)
  · rw [cut]
    split
    · next long => exact Or.inr ⟨_, long, by simp only [payload]⟩
    · exact Or.inl rfl

end Parts

theorem Presentable.prefixed {w : Weight} {lead : Bytes} {sub : Fulfillment} {c : Condition}
    (h : sub.Presentable) : (prefixed w lead sub c).Presentable := by
  rcases h with can | ⟨length, long, tooLarge⟩
  · exact Or.inl can
  · exact Or.inr ⟨length, long, by rw [payload, bind_of_error tooLarge]⟩

theorem Decoded.canReveal {f : Fulfillment} (decoded : f.Decoded) : f.canReveal = true := by
  obtain ⟨levels, type, payload, ok⟩ := decoded
  have kept := ofPayload_faithful levels type payload f ok
  obtain ⟨shown, paid, _⟩ := kept.again
  exact kept.wellFormed.canReveal_iff.2 ⟨shown, paid⟩

theorem Obtained.presentable {f : Fulfillment} (obtained : f.Obtained) {message : Bytes}
    (holds : f.validate message = true) : f.Presentable := by
  induction obtained generalizing message with
  | given decoded => exact Or.inl decoded.canReveal
  | preimage bytes => exact Or.inl rfl
  | prefixed _ made ih =>
    obtain ⟨_, rfl⟩ := ofPrefix_eq_ok.1 made
    rw [validate] at holds
    exact (ih holds).prefixed
  | ed25519 made =>
    obtain ⟨signature, rfl, _⟩ := ofEd25519_eq_ok made
    cases signature with
    | none => simp [validate] at holds
    | some signature => exact Or.inl rfl
  | rsa made =>
    obtain ⟨_, signature, rfl, _⟩ := ofRsa_eq_ok made
    cases signature with
    | none => simp [validate] at holds
    | some signature => exact Or.inl rfl
  | threshold parts made _ =>
    obtain ⟨order, selection, c, rfl, perm, _⟩ := ofThreshold_eq_ok made
    obtain rfl := selection_of_ofThreshold made
    rw [validate, decide_eq_true_eq] at holds
    exact presentable_of_select (fun sub mem =>
      Obtained.wellFormed (parts sub (perm.mem_iff.1 mem))) holds
  | timeout expiry => exact Or.inl rfl
  | withheld | reduced => simp [validate] at holds
  | weighted w _ ih =>
    rw [validate_withWeight] at holds
    simpa only [Presentable, canReveal_withWeight, payload_withWeight] using ih holds

section Single

variable {f : Fulfillment}

theorem weight_pos (f : Fulfillment) : 0 < f.weight.toNat :=
  UInt32.lt_iff_toNat_lt.1 f.weight.pos

theorem validate_single (w : Weight) (f : Fulfillment) (selection : Selection) (c : Condition)
    (message : Bytes) : (threshold w 1 [f] selection c).validate message =
      (f.canReveal && f.validate message) := by
  rw [validate, validWeight, validWeight]
  cases f.canReveal && f.validate message with
  | false => rfl
  | true => exact decide_eq_true f.weight_pos

theorem ofThreshold_single (fits : ofThreshold 1 [f] ≠ .error .sizeOverflow) :
    ∃ selection c, ofThreshold 1 [f] = .ok (threshold Weight.one 1 [f] selection c) := by
  have few := Threshold.card_cappedSums_le 1 [f.weight.toNat]
  have weights : [f].map (fun sub => sub.weight.toNat) = [f.weight.toNat] := rfl
  have enough : ¬ [f.weight.toNat].sum < (1 : UInt32).toNat := by
    rw [List.sum_singleton]
    exact Nat.not_lt.2 f.weight_pos
  have admitted : admission 1 [f.weight.toNat] = .ok () := by
    rw [admission, if_neg (by decide), if_neg (List.cons_ne_nil _ _),
      if_neg (by rw [List.length_singleton]; decide), if_neg ?_, if_neg enough]
    exact Nat.not_lt.2 (Nat.le_trans few (by decide))
  have outcome := map_unit_ofThreshold fits
  rw [weights, admitted] at outcome
  cases made : ofThreshold 1 [f] with
  | error e =>
    rw [made] at outcome
    cases outcome
  | ok t =>
    obtain ⟨order, selection, c, rfl, perm, _⟩ := ofThreshold_eq_ok made
    rw [List.perm_singleton.1 perm]
    exact ⟨selection, c, rfl⟩

theorem ofThreshold_single_of_small (small : f.condition.size.toNat + 70 < 2 ^ 64) :
    ∃ c, c.size.toNat ≤ f.condition.size.toNat + 70 ∧ ofThreshold 1 [f] =
      .ok (threshold Weight.one 1 [f] (Threshold.select 1 [share f.commitment f]) c) := by
  have most : (Threshold.fullExtent f.commitment).most ≤ f.condition.size.toNat + 64 :=
    Threshold.most_fullExtent_le f.commitment
  have header : Threshold.headerLength 1 = 6 := by decide
  have room : Threshold.room [f.commitment] ≤ f.condition.size.toNat + 70 := by
    rw [Threshold.room, List.length_singleton, header, List.map_singleton, List.map_singleton,
      List.sum_singleton]
    omega
  have fits : Threshold.room [f.commitment] < 2 ^ 64 := Nat.lt_of_le_of_lt room small
  obtain ⟨c, conditioned⟩ := Threshold.condition_of_few fits (show (1 : UInt32).toNat < _ by decide)
    (show 1 ≤ f.weight.toNat + 0 from f.weight_pos)
  refine ⟨c, ?_, ofThreshold_of_sorted rfl (List.pairwise_singleton _ _) conditioned⟩
  exact Nat.le_trans ((Threshold.condition_of_room fits).of_ok _ conditioned) room

end Single

/-- What holds for a message can be shown in all forms, unless its least payload is too long. Where
no size overflows, a threshold can be put around it, of any weight, which holds for the same
messages if it can be shown, and for none if not. -/
theorem canReveal_of_validate {f : Fulfillment} (obtained : f.Obtained) :
    (∀ message, f.validate message = true →
      (f.canReveal = true ∧ (∃ shown, f.payload = .ok shown) ∧ (∃ bytes, f.binary = .ok bytes) ∧
          ∃ text, f.uri = .ok text) ∨
        ∃ length, Threshold.maxPayload < length ∧ f.payload = .error (.payloadTooLarge length)) ∧
    ∀ w, ofThreshold 1 [f.withWeight w] ≠ .error .sizeOverflow →
      ∃ t, ofThreshold 1 [f.withWeight w] = .ok t ∧
        ∀ message, t.validate message = (f.canReveal && f.validate message) := by
  constructor
  · intro message holds
    refine (obtained.presentable holds).imp_left fun can => ⟨can, ?_⟩
    rw [binary_iff_payload, uri_iff_payload, and_self_iff, and_self_iff]
    exact obtained.wellFormed.payload can
  · intro w fits
    obtain ⟨selection, c, made⟩ := ofThreshold_single fits
    refine ⟨_, made, fun message => ?_⟩
    rw [validate_single, canReveal_withWeight, validate_withWeight]

theorem canReveal_of_validate_behind : ∃ f t : Fulfillment, f.Obtained ∧
    (∃ c, f.Nests 1 (threshold Weight.one 2 sampleParts (.revealed [true, false]) c)) ∧
    f.validate [] = true ∧ f.canReveal = true ∧ (∃ shown, f.payload = .ok shown) ∧
    (∃ bytes, f.binary = .ok bytes) ∧ (∃ text, f.uri = .ok text) ∧
    ofThreshold 1 [f.withWeight sampleWeight] ≠ .error .sizeOverflow ∧
    ofThreshold 1 [f.withWeight sampleWeight] = .ok t ∧ t.validate [] = true := by
  obtain ⟨c, outer, obtained, size⟩ := obtained_samplePrefixed
  have holds : (samplePrefixed c outer).validate [] = true := by
    simp [samplePrefixed, validate, validWeight, sampleParts, canReveal, weight, Weight.toNat]
  have can : (samplePrefixed c outer).canReveal = true := rfl
  have small :
      ((samplePrefixed c outer).withWeight sampleWeight).condition.size.toNat + 70 < 2 ^ 64 := by
    rw [samplePrefixed, withWeight, condition, size]
    decide
  obtain ⟨_, _, made⟩ := ofThreshold_single_of_small small
  have fits : ofThreshold 1 [(samplePrefixed c outer).withWeight sampleWeight] ≠
      .error .sizeOverflow := by
    intro stuck
    cases made.symm.trans stuck
  obtain ⟨shows, around⟩ := canReveal_of_validate obtained
  obtain ⟨t, wrapped, alike⟩ := around sampleWeight fits
  have both : t.validate [] = true := by rw [alike, can, holds]; rfl
  rcases shows [] holds with ⟨_, paid, written, text⟩ | ⟨_, _, stuck⟩
  · exact ⟨_, t, obtained, ⟨c, .prefixed (.root _)⟩, holds, can, paid, written, text, fits, wrapped,
      both⟩
  · obtain ⟨shown, paid⟩ := obtained.wellFormed.payload can
    cases paid.symm.trans stuck

def longPreimage : Fulfillment :=
  preimage Weight.one (List.replicate 4096 0)

theorem select_longPreimage :
    Threshold.select 1 [share longPreimage.commitment longPreimage] = .tooLarge 4113 := by
  have paid : longPreimage.payload = .ok (List.replicate 4096 0) := by
    rw [longPreimage, payload]
  have known := share_of_payload paid
  rw [frame_length, List.length_replicate] at known
  have choice := Threshold.Choice.reveal known .nil
  have total : Threshold.headerLength 1 +
      (Threshold.revealedLength (share longPreimage.commitment longPreimage).part
        (2 + Wire.octetsLength 4096) + 0) = 4113 := by decide +kernel
  have ones : ∀ part ∈ [share longPreimage.commitment longPreimage],
      part.part.weight.toNat = 1 := List.forall_mem_singleton.2 rfl
  have selected : Threshold.select 1 _ = _ := Threshold.select_all ones rfl choice
  rwa [List.length_singleton, total, if_pos (by decide)] at selected

/-- A threshold over it holds for every message and cannot be shown, and a threshold around that one
holds for no message. -/
theorem not_canReveal_of_validate_long : ∃ f t : Fulfillment,
    ofThreshold 1 [longPreimage] = .ok f ∧ f.Obtained ∧
      (∀ message, f.validate message = true) ∧ f.canReveal = false ∧
      f.payload = .error (.payloadTooLarge 4113) ∧
      ofThreshold 1 [f] = .ok t ∧ ∀ message, t.validate message = false := by
  have size : longPreimage.condition.size.toNat = 4096 := by
    rw [longPreimage, condition, simpleCondition, List.length_replicate]
    rfl
  obtain ⟨c, small, made⟩ := @ofThreshold_single_of_small longPreimage (by rw [size]; decide)
  rw [select_longPreimage] at made
  rw [size] at small
  obtain ⟨d, _, around⟩ :=
    @ofThreshold_single_of_small (threshold Weight.one 1 [longPreimage] (.tooLarge 4113) c)
      (Nat.lt_of_le_of_lt (Nat.add_le_add_right small 70) (by decide))
  refine ⟨_, _, made, .threshold (List.forall_mem_singleton.2 (.preimage _)) made, ?_, rfl, ?_,
    around, ?_⟩
  · intro message
    rw [validate_single, longPreimage, validate]
    rfl
  · simp only [payload]
  · intro message
    rw [validate_single]
    rfl

end CryptoConditions.Fulfillment
