import CryptoConditions.Proofs.Document.Rebuilt

/-! What a document discloses of a fulfillment: keys, thresholds and weights, and of all else the
condition. From this the fulfillment can be built again, without its signatures; it has the same
condition at every level, and the same document. Nothing else is in the document. -/

namespace CryptoConditions

namespace Fulfillment

mutual

/-- The fulfillment as a document tells it: keys without signatures, the standard ones of their
moduli, and for what is neither a key nor a threshold its condition. -/
def publicPart : Fulfillment → Fulfillment
  | ed25519 w key _ => ed25519 w key none
  | rsa w key long _ => rsa w ⟨key.modulus, Rsa.publicExponent⟩ long none
  | threshold w needed subs _ c =>
    threshold w needed (publicParts subs)
      (Threshold.select needed ((publicParts subs).map fun sub => share sub.commitment sub)) c
  | preimage w bytes => withheld ⟨(preimage w bytes).condition, w, none⟩
  | prefixed w _ _ c => withheld ⟨c, w, none⟩
  | timeout w expiry => withheld ⟨(timeout w expiry).condition, w, none⟩
  | withheld commitment => withheld ⟨commitment.condition, commitment.weight, none⟩

def publicParts : List Fulfillment → List Fulfillment
  | [] => []
  | sub :: subs => publicPart sub :: publicParts subs

end

/-- No signature, no preimage and no prefix is in the tree. -/
inductive Public : Fulfillment → Prop where
  | ed25519 (w : Weight) (key : Ed25519.PublicKey) : Public (.ed25519 w key none)
  | rsa (w : Weight) (key : Rsa.PublicKey) (long : Rsa.minLength ≤ key.modulus.length) :
      Public (.rsa w key long none)
  | threshold {w : Weight} {needed : UInt32} {subs : List Fulfillment} {selection : Selection}
      {c : Condition} (parts : ∀ sub ∈ subs, Public sub) :
      Public (.threshold w needed subs selection c)
  | withheld (commitment : Commitment) : Public (.withheld commitment)

theorem publicParts_eq_map (subs : List Fulfillment) : publicParts subs = subs.map publicPart := by
  induction subs with
  | nil => rfl
  | cons sub subs ih => rw [publicParts, ih, List.map_cons]

theorem condition_publicPart (f : Fulfillment) : f.publicPart.condition = f.condition := by
  cases f <;> rfl

theorem weight_publicPart (f : Fulfillment) : f.publicPart.weight = f.weight := by
  cases f <;> rfl

theorem withWeight_weight (f : Fulfillment) : f.withWeight f.weight = f := by
  cases f <;> rfl

theorem withWeight_withWeight (v w : Weight) (f : Fulfillment) :
    (f.withWeight v).withWeight w = f.withWeight w := by
  cases f <;> rfl

theorem share_publicPart (f : Fulfillment) :
    f.publicPart.commitment.share = f.commitment.share := by
  rw [share_commitment, share_commitment, condition_publicPart, weight_publicPart]

theorem map_share_publicParts (subs : List Fulfillment) :
    ((publicParts subs).map commitment).map Commitment.share =
      (subs.map commitment).map Commitment.share := by
  rw [publicParts_eq_map, List.map_map, List.map_map, List.map_map]
  exact List.map_congr_left fun sub _ => share_publicPart sub

mutual

theorem publicPart_public : (f : Fulfillment) → f.publicPart.Public
  | .ed25519 w key _ => .ed25519 w key
  | .rsa w key long _ => .rsa w ⟨key.modulus, Rsa.publicExponent⟩ long
  | .threshold _ _ subs _ _ => .threshold (publicParts_public subs)
  | .preimage .. | .prefixed .. | .timeout .. | .withheld _ => .withheld _

theorem publicParts_public : (subs : List Fulfillment) → ∀ sub ∈ publicParts subs, sub.Public
  | [] => by simp [publicParts]
  | sub :: subs => List.forall_mem_cons.2 ⟨publicPart_public sub, publicParts_public subs⟩

end

mutual

theorem details_publicPart (weight : Option UInt32) :
    (f : Fulfillment) → f.publicPart.details weight = f.details weight
  | .threshold _ _ subs _ _ => by
    rw [publicPart, details, details, listDetails_publicParts subs]
  | .ed25519 .. | .rsa .. | .preimage .. | .prefixed .. | .timeout .. | .withheld _ => rfl

theorem listDetails_publicParts :
    (subs : List Fulfillment) → listDetails (publicParts subs) = listDetails subs
  | [] => rfl
  | sub :: subs => by
    rw [publicParts, listDetails, listDetails, weight_publicPart, details_publicPart,
      listDetails_publicParts subs]

end

end Fulfillment

namespace Details

open Fulfillment

theorem declared_ok {f : Fulfillment} (fresh : f.weight = Weight.one) (weight : Option Weight) :
    declared (UInt64.ofNat f.condition.features.toNat) (weight.map Weight.val) f =
      .ok (f.withWeight (weight.getD Weight.one)) := by
  have small := f.condition.features.toNat_lt
  have features : (UInt64.ofNat f.condition.features.toNat).toNat = f.condition.features.toNat := by
    rw [UInt64.toNat_ofNat', Nat.mod_eq_of_lt (by omega)]
  refine declared_eq_ok.2 ⟨features, ?_⟩
  cases weight with
  | none =>
    rw [Option.getD_none, ← fresh, withWeight_weight]
    exact Or.inl ⟨rfl, rfl⟩
  | some w => exact Or.inr ⟨w.val, w, rfl, w.ofNat_toNat, rfl⟩

theorem type_toNat (type : ConditionType) : (UInt16.ofNat type.id).toNat = type.id := by
  cases type <;> rfl

theorem toFulfillment_opaqueDetails {c : Condition} (consistent : c.Consistent)
    (weight : Option Weight) :
    (opaqueDetails c (weight.map Weight.val)).toFulfillment =
      .ok (.withheld ⟨c, weight.getD Weight.one, none⟩) :=
  toFulfillment_eq_ok.2
    ⟨_, .whole rfl rfl consistent, @declared_ok (.withheld (.plain c)) rfl weight⟩

theorem toFulfillment_keyDetails {f : Fulfillment} {key own : PublicKey}
    (type : f.condition.type = f.type) (read : PublicKey.ofBase58 key.base58 = .ok own)
    (made : ofPublicKey own = .ok f) (fresh : f.weight = Weight.one) (weight : Option Weight) :
    (keyDetails f.condition key (weight.map Weight.val)).toFulfillment =
      .ok (f.withWeight (weight.getD Weight.one)) := by
  have id : (UInt16.ofNat f.condition.type.id).toNat = f.type.id := by rw [type_toNat, type]
  exact toFulfillment_eq_ok.2 ⟨f, .key rfl id rfl read made, declared_ok fresh weight⟩

theorem mapM_listDetails {subs : List Fulfillment}
    (each : ∀ sub ∈ subs, (sub.details (some sub.weight.val)).toFulfillment = .ok sub.publicPart) :
    (listDetails subs).mapM toFulfillment = .ok (publicParts subs) := by
  induction subs with
  | nil => rfl
  | cons sub subs ih =>
    rw [List.forall_mem_cons] at each
    rw [listDetails, List.mapM_cons, bind_of_ok each.1, bind_of_ok (ih each.2)]
    rfl

end Details

namespace Fulfillment

open Details

theorem Assembled.ofThreshold_publicParts {needed : UInt32} {subs : List Fulfillment}
    {selection : Selection} {c : Condition} (h : Assembled needed subs selection c) (w : Weight) :
    ofThreshold needed (publicParts subs) =
      .ok ((threshold w needed subs selection c).publicPart.withWeight Weight.one) := by
  have shares := map_share_publicParts subs
  refine ofThreshold_of_sorted ?_ (Commitment.pairwise_precedes_congr shares.symm h.sorted) ?_
  · rw [publicParts_eq_map, List.length_map]
    exact h.shape
  · rw [Threshold.condition_congr needed shares]
    exact h.condition_eq

theorem WellFormed.toFulfillment_details {f : Fulfillment} (h : f.WellFormed)
    (weight : Option Weight) :
    (f.details (weight.map Weight.val)).toFulfillment =
      .ok (f.publicPart.withWeight (weight.getD Weight.one)) := by
  induction h generalizing weight with
  | preimage w bytes => exact toFulfillment_opaqueDetails (simpleCondition_consistent _ _ _) weight
  | @prefixed w lead sub c part made =>
    have consistent := (@WellFormed.prefixed w lead sub c part made).condition.1
    exact toFulfillment_opaqueDetails consistent weight
  | ed25519 w key signature =>
    exact toFulfillment_keyDetails (f := .ed25519 Weight.one key none) rfl
      (@PublicKey.ofBase58_base58 (.ed25519 key) True.intro) rfl rfl weight
  | rsa w key long signature =>
    have read : PublicKey.ofBase58 (PublicKey.rsa key).base58 =
        .ok (.rsa ⟨key.modulus, Rsa.publicExponent⟩) :=
      @PublicKey.ofBase58_base58 (.rsa ⟨key.modulus, Rsa.publicExponent⟩) ⟨rfl, long⟩
    have made : ofPublicKey (.rsa ⟨key.modulus, Rsa.publicExponent⟩) =
        .ok (.rsa Weight.one ⟨key.modulus, Rsa.publicExponent⟩ long none) := by
      rw [ofPublicKey, ofRsa, dif_pos long]
    exact toFulfillment_keyDetails
      (f := .rsa Weight.one ⟨key.modulus, Rsa.publicExponent⟩ long none) rfl read made rfl weight
  | @threshold w needed subs selection c parts assembled ih =>
    have type := (@WellFormed.threshold w needed subs selection c parts assembled).condition.2
    have inner : (listDetails subs).mapM toFulfillment = .ok (publicParts subs) := by
      refine mapM_listDetails fun sub mem => ?_
      have part := ih sub mem (some sub.weight)
      have own := sub.publicPart.withWeight_weight
      rw [weight_publicPart] at own
      rwa [Option.map_some, Option.getD_some, own] at part
    have made := assembled.ofThreshold_publicParts w
    have fresh := weight_withWeight Weight.one
      (Fulfillment.threshold w needed subs selection c).publicPart
    have features := declared_ok fresh weight
    rw [condition_withWeight, condition_publicPart, withWeight_withWeight] at features
    have id : (UInt16.ofNat c.type.id).toNat = ConditionType.threshold.id := by
      rw [type_toNat, show c.type = .threshold from type]
    exact toFulfillment_eq_ok.2 ⟨_, .threshold rfl id rfl inner made, features⟩
  | timeout w expiry => exact toFulfillment_opaqueDetails (simpleCondition_consistent _ _ _) weight
  | withheld consistent => exact toFulfillment_opaqueDetails consistent weight

/-- Two trees of one shape that have all in common but signatures, and what follows from these:
which parts a threshold selects, and the conditions kept in the nodes. -/
inductive SignedApart : Fulfillment → Fulfillment → Prop where
  | preimage (w : Weight) (bytes : Bytes) : SignedApart (.preimage w bytes) (.preimage w bytes)
  | prefixed {w : Weight} {lead : Bytes} {sub other : Fulfillment} (c d : Condition)
      (part : SignedApart sub other) :
      SignedApart (.prefixed w lead sub c) (.prefixed w lead other d)
  | ed25519 (w : Weight) (key : Ed25519.PublicKey) (s t : Option (Octets 64)) :
      SignedApart (.ed25519 w key s) (.ed25519 w key t)
  | rsa (w : Weight) (key : Rsa.PublicKey) (long : Rsa.minLength ≤ key.modulus.length)
      (s t : Option (Octets key.modulus.length)) :
      SignedApart (.rsa w key long s) (.rsa w key long t)
  | threshold {w : Weight} {needed : UInt32} {subs others : List Fulfillment} (s t : Selection)
      (c d : Condition) (length : subs.length = others.length)
      (parts : ∀ pair ∈ subs.zip others, SignedApart pair.1 pair.2) :
      SignedApart (.threshold w needed subs s c) (.threshold w needed others t d)
  | timeout (w : Weight) (expiry : UInt64) : SignedApart (.timeout w expiry) (.timeout w expiry)
  | withheld (commitment : Commitment) : SignedApart (.withheld commitment) (.withheld commitment)

theorem listDetails_eq_map (subs : List Fulfillment) :
    listDetails subs = subs.map fun sub => sub.details (some sub.weight.val) := by
  induction subs with
  | nil => rfl
  | cons sub subs ih => rw [listDetails, ih, List.map_cons]

theorem SignedApart.same {f g : Fulfillment} (apart : SignedApart f g) (left : f.WellFormed)
    (right : g.WellFormed) :
    f.weight = g.weight ∧ f.condition = g.condition ∧
      ∀ weight, f.details weight = g.details weight := by
  induction apart with
  | preimage | timeout | withheld => exact ⟨rfl, rfl, fun _ => rfl⟩
  | ed25519 | rsa => exact ⟨rfl, rfl, fun _ => rfl⟩
  | prefixed c d part ih =>
    cases left with
    | prefixed left made =>
      cases right with
      | prefixed right made' =>
        have kept := (Fulfillment.prefixed.inj (ofPrefix_eq_ok.1 made).2).2.2.2
        have kept' := (Fulfillment.prefixed.inj (ofPrefix_eq_ok.1 made').2).2.2.2
        have same : c = d := by rw [kept, kept', (ih left right).2.1]
        cases same
        exact ⟨rfl, rfl, fun _ => rfl⟩
  | @threshold w needed subs others s t c d length parts ih =>
    cases left with
    | threshold left assembled =>
      cases right with
      | threshold right assembled' =>
        have each (pair) (mem : pair ∈ subs.zip others) := ih pair mem
          (left _ (List.of_mem_zip mem).1) (right _ (List.of_mem_zip mem).2)
        have shares : (subs.map commitment).map Commitment.share =
            (others.map commitment).map Commitment.share := by
          rw [List.map_map, List.map_map]
          refine map_eq_map_of_zip length fun pair mem => ?_
          obtain ⟨weight, condition, _⟩ := each pair mem
          rw [Function.comp_apply, Function.comp_apply, share_commitment, share_commitment, weight,
            condition]
        have described : listDetails subs = listDetails others := by
          rw [listDetails_eq_map, listDetails_eq_map]
          refine map_eq_map_of_zip length fun pair mem => ?_
          obtain ⟨weight, _, described⟩ := each pair mem
          rw [described, weight]
        have conditions := assembled.condition_eq
        rw [Threshold.condition_congr needed shares, assembled'.condition_eq] at conditions
        cases conditions
        exact ⟨rfl, rfl, fun weight => by rw [details, details, described]⟩

end Fulfillment

namespace ConditionDocument

open Fulfillment

theorem toCondition_eq_ok {d : ConditionDocument} {c : Condition} (ok : d.toCondition = .ok c) :
    Condition.ofUri d.uri = .ok c ∧ ∃ f, d.details.toFulfillment = .ok f ∧ f.condition = c := by
  simp only [toCondition, bind_eq_ok] at ok
  obtain ⟨own, read, f, built, ok⟩ := ok
  split at ok
  · next same =>
    cases ok
    exact ⟨read, f, built, same⟩
  · cases ok

theorem toCondition_of_wellFormed {f : Fulfillment} (h : f.WellFormed) :
    (ofFulfillment f).toCondition = .ok f.condition := by
  have built := h.toFulfillment_details none
  rw [Option.map_none] at built
  rw [toCondition, ofFulfillment, bind_of_ok h.condition.1.ofUri, bind_of_ok built,
    condition_withWeight, condition_publicPart, if_pos rfl]
  rfl

/-- The document of a fulfillment describes its condition, and tells nothing but its public part:
neither signatures nor preimages nor prefixes are in it, and trees that differ in signatures only
have one document. A document that describes a condition has its URI, and what is built from its
description has the condition. -/
theorem toCondition_ofFulfillment :
    (∀ f : Fulfillment, f.Obtained →
      (ofFulfillment f).toCondition = .ok f.condition ∧
        (f.publicPart.Public ∧ ofFulfillment f = ofFulfillment f.publicPart) ∧
          ∀ g : Fulfillment, g.Obtained → SignedApart f g → ofFulfillment f = ofFulfillment g) ∧
    ∀ (d : ConditionDocument) (c : Condition), d.toCondition = .ok c →
      c.uri = d.uri ∧ ∃ f, d.details.toFulfillment = .ok f ∧ f.condition = c := by
  refine ⟨fun f obtained => ⟨?_, ⟨f.publicPart_public, ?_⟩, ?_⟩, ?_⟩
  · exact toCondition_of_wellFormed obtained.wellFormed
  · rw [ofFulfillment, ofFulfillment, details_publicPart, condition_publicPart]
  · intro g other apart
    obtain ⟨_, condition, described⟩ := apart.same obtained.wellFormed other.wellFormed
    rw [ofFulfillment, ofFulfillment, described, condition]
  · intro d c ok
    obtain ⟨read, built⟩ := toCondition_eq_ok ok
    exact ⟨(Condition.ofUri_ok read).1.symm, built⟩

section Samples

def signerKey : Ed25519.PublicKey :=
  ⟨⟨0xec :: List.replicate 30 0xff ++ [0x7f], rfl⟩, by decide +kernel⟩

def zeroSignature : Octets 64 :=
  ⟨List.replicate 64 0, rfl⟩

theorem built_signer {given : Fulfillment → Prop} (signature : Option (Octets 64)) :
    Built given (.ed25519 Weight.one signerKey signature) := by
  have made : ofEd25519 signerKey (signature.map Octets.bytes) =
      .ok (.ed25519 Weight.one signerKey signature) := by
    cases signature with
    | none => rfl
    | some signature => rw [Option.map_some, ofEd25519, Octets.ofBytes?_bytes]
  exact .ed25519 made

theorem obtained_signer (signature : Option (Octets 64)) : ∃ selection c,
    (threshold Weight.one 1 [.ed25519 Weight.one signerKey signature] selection c).Obtained := by
  have unsigned : Threshold.size 1 [(ed25519 Weight.one signerKey none).commitment] = .ok 109 := by
    decide +kernel
  have size : Threshold.size 1 ([ed25519 Weight.one signerKey signature].map commitment) =
      .ok 109 := unsigned
  have conditioned : ∃ c, Threshold.condition 1
      ([ed25519 Weight.one signerKey signature].map commitment) = .ok c :=
    ⟨_, by rw [Threshold.condition, bind_of_ok size]; rfl⟩
  obtain ⟨c, conditioned⟩ := conditioned
  have made := ofThreshold_of_sorted rfl (List.pairwise_singleton _ _) conditioned
  exact ⟨_, c, .threshold (List.forall_mem_singleton.2 (built_signer signature)) made⟩

theorem toCondition_ofFulfillment_sample : ∃ f g : Fulfillment,
    f.Obtained ∧ g.Obtained ∧ SignedApart f g ∧ f ≠ g ∧
      (ofFulfillment f).toCondition = .ok f.condition ∧ ofFulfillment f = ofFulfillment g ∧
        f.condition.uri = (ofFulfillment g).uri := by
  obtain ⟨s, c, plain⟩ := obtained_signer none
  obtain ⟨t, d, signed⟩ := obtained_signer (some zeroSignature)
  have keys := SignedApart.ed25519 Weight.one signerKey none (some zeroSignature)
  have apart : SignedApart (threshold Weight.one 1 [.ed25519 Weight.one signerKey none] s c)
      (threshold Weight.one 1 [.ed25519 Weight.one signerKey (some zeroSignature)] t d) :=
    .threshold s t c d rfl (List.forall_mem_singleton.2 keys)
  obtain ⟨described, _, alike⟩ := toCondition_ofFulfillment.1 _ plain
  have one := alike _ signed apart
  have uri := (toCondition_ofFulfillment.2 _ _ described).1
  rw [one] at uri
  exact ⟨_, _, plain, signed, apart, by simp, described, one, uri⟩

end Samples

end ConditionDocument

end CryptoConditions
