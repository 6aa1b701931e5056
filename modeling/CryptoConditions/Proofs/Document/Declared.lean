import CryptoConditions.Proofs.Document.Disclosed

/-! What a description declares. Every node that is built from has the features it declares, and
a key or a threshold has the declared type. A node that goes by its URI may declare any type: its
condition has the type that the URI tells. -/

namespace CryptoConditions.Details

open Fulfillment

/-- The nodes that a description is built from: itself, and those of the parts of a threshold. -/
inductive Uses : Details → Details → Prop where
  | root (d : Details) : Uses d d
  | part {d part node : Details} {subs : List Details} (kind : d.kind = .fulfillment)
      (type : d.type.toNat = ConditionType.threshold.id) (parts : d.subs = some subs)
      (mem : part ∈ subs) (inner : Uses part node) : Uses d node

theorem Describes.type_eq {d : Details} {f : Fulfillment} (describes : d.Describes f)
    (wellFormed : f.WellFormed) (kind : d.kind = .fulfillment) :
    d.type.toNat = f.condition.type.id := by
  rw [wellFormed.condition.2]
  cases describes with
  | whole other => cases kind.symm.trans other
  | key _ type => exact type
  | threshold _ type _ _ made =>
    obtain ⟨_, _, _, rfl, _, _⟩ := ofThreshold_eq_ok made
    exact type

theorem Describes.uri_eq {d : Details} {f : Fulfillment} (describes : d.Describes f)
    (kind : d.kind = .condition) : d.uri = some f.condition.uri := by
  cases describes with
  | whole _ uri => exact uri
  | key other => cases kind.symm.trans other
  | threshold other => cases kind.symm.trans other

theorem declared_of_toFulfillment {d : Details} {f : Fulfillment} (ok : d.toFulfillment = .ok f) :
    d.features.toNat = f.condition.features.toNat ∧
      (d.kind = .fulfillment → d.type.toNat = f.condition.type.id) ∧
      (d.kind = .condition → d.uri = some f.condition.uri) := by
  obtain ⟨g, describes, ok⟩ := toFulfillment_eq_ok.1 ok
  have wellFormed := Built.wellFormed (fun _ => False.elim) describes.built
  obtain ⟨features, same⟩ := condition_of_declared ok
  rw [same] at features ⊢
  exact ⟨features, describes.type_eq wellFormed, describes.uri_eq⟩

theorem exists_nested_of_part {d part : Details} {subs : List Details} {f : Fulfillment}
    (ok : d.toFulfillment = .ok f) (kind : d.kind = .fulfillment)
    (type : d.type.toNat = ConditionType.threshold.id) (parts : d.subs = some subs)
    (mem : part ∈ subs) : ∃ sub, part.toFulfillment = .ok sub ∧
      ∀ {g : Fulfillment} {depth : Nat}, sub.Nests depth g → f.Nests (depth + 1) g := by
  obtain ⟨whole, describes, ok⟩ := toFulfillment_eq_ok.1 ok
  cases describes with
  | whole other => cases kind.symm.trans other
  | key _ own _ _ made =>
    rw [type] at own
    rcases type_of_ofPublicKey made with same | same <;> rw [same] at own <;> cases own
  | threshold _ _ _ built made =>
    obtain ⟨order, _, _, rfl, perm, _⟩ := ofThreshold_eq_ok made
    rw [parts, Option.getD_some] at built
    obtain ⟨sub, inside, found⟩ := exists_of_mem_left (mapM_eq_ok built) mem
    have inside := perm.mem_iff.2 inside
    refine ⟨sub, found, fun nests => ?_⟩
    obtain ⟨_, ⟨_, rfl⟩ | ⟨_, w, _, _, rfl⟩⟩ := declared_eq_ok.1 ok
    · exact .part inside nests
    · exact Nests.withWeight (.part inside nests) w

/-- Where a description is built to a fulfillment, each node that it is built from is built to
something nested in that fulfillment. The node has the declared features; a key or a threshold has
the declared type, and a condition the declared URI. -/
theorem declared_of_uses {d node : Details} {f : Fulfillment} (ok : d.toFulfillment = .ok f)
    (uses : Uses d node) :
    ∃ g, node.toFulfillment = .ok g ∧ (∃ depth, f.Nests depth g) ∧
      node.features.toNat = g.condition.features.toNat ∧
      (node.kind = .fulfillment → node.type.toNat = g.condition.type.id) ∧
      (node.kind = .condition → node.uri = some g.condition.uri) := by
  induction uses generalizing f with
  | root d => exact ⟨f, ok, ⟨0, .root f⟩, declared_of_toFulfillment ok⟩
  | part kind type parts mem _ ih =>
    obtain ⟨sub, found, nests⟩ := exists_nested_of_part ok kind type parts mem
    obtain ⟨g, read, ⟨depth, inner⟩, declares⟩ := ih found
    exact ⟨g, read, ⟨depth + 1, nests inner⟩, declares⟩

section Samples

open ConditionDocument Condition

theorem declared_of_uses_signer : ∃ (d node : Details) (f : Fulfillment),
    d.toFulfillment = .ok f ∧ Uses d node ∧ d.type ≠ node.type ∧
    ∃ g, node.toFulfillment = .ok g ∧ (∃ depth, f.Nests depth g) ∧
      node.features.toNat = g.condition.features.toNat ∧
      (node.kind = .fulfillment → node.type.toNat = g.condition.type.id) ∧
      (node.kind = .condition → node.uri = some g.condition.uri) := by
  obtain ⟨selection, c, obtained⟩ := obtained_signer none
  have wellFormed := obtained.wellFormed
  have type : c.type = .threshold := wellFormed.condition.2
  have built := wellFormed.toFulfillment_details none
  rw [Option.map_none] at built
  have id : (UInt16.ofNat c.type.id).toNat = ConditionType.threshold.id := by
    rw [type, type_toNat]
  have uses : Uses
      ((Fulfillment.threshold Weight.one 1 [.ed25519 Weight.one signerKey none] selection c).details
        none)
      ((Fulfillment.ed25519 Weight.one signerKey none).details (some 1)) :=
    .part rfl id rfl (List.mem_singleton.2 rfl) (.root _)
  refine ⟨_, _, _, built, uses, ?_, declared_of_uses built uses⟩
  change UInt16.ofNat c.type.id ≠ UInt16.ofNat ConditionType.ed25519.id
  rw [type]
  decide

/-- The condition of a key, under the type of a preimage. -/
def mislabeled : Details :=
  ⟨32, .condition, UInt16.ofNat ConditionType.preimage.id, none, none, none, none, some zeroKeyUri⟩

/-- A node that goes by its URI is built whatever its type. -/
theorem mislabeled_toFulfillment :
    mislabeled.toFulfillment = .ok (.withheld (.plain zeroKeyCondition)) ∧
      zeroKeyCondition.type = .ed25519 ∧ mislabeled.type.toNat ≠ zeroKeyCondition.type.id := by
  have built : ofUriNode (some zeroKeyUri) = .ok (.withheld (.plain zeroKeyCondition)) := by
    rw [ofUriNode, bind_of_ok ofUri_zeroKey]
    rfl
  refine ⟨?_, rfl, by decide⟩
  rw [toFulfillment_eq]
  exact bind_eq_ok.2 ⟨_, built, declared_eq_ok.2 ⟨rfl, Or.inl ⟨rfl, rfl⟩⟩⟩

end Samples

end CryptoConditions.Details
