import CryptoConditions.Proofs.Document.Disclosed
import CryptoConditions.Proofs.Fulfillment.Identity

/-! The normal form of descriptions. Descriptions may give parts in any order, leave out weights
and hold fields that nothing is built from. The description of what is built from one is normal: it
is built to the same condition, and described again it stays as it is. -/

namespace CryptoConditions

namespace Fulfillment

theorem details_withWeight (w : Weight) (f : Fulfillment) (weight : Option UInt32) :
    (f.withWeight w).details weight = f.details weight := by
  cases f <;> rfl

theorem ofThreshold_of_shares {needed : UInt32} {parts others : List Fulfillment} {f : Fulfillment}
    (perm : (parts.map fun sub => sub.commitment.share).Perm
      (others.map fun sub => sub.commitment.share)) (made : ofThreshold needed parts = .ok f) :
    ∃ g, ofThreshold needed others = .ok g ∧ g.commitment.share = f.commitment.share := by
  have lengths := perm.length_eq
  rw [List.length_map, List.length_map] at lengths
  have same := map_condition_ofThreshold needed parts
  rw [lengths, condition_arrange_congr needed perm, ← map_condition_ofThreshold, made] at same
  cases remade : ofThreshold needed others with
  | error e =>
    rw [remade] at same
    cases same
  | ok g =>
    rw [remade] at same
    have conditions : f.condition = g.condition := Except.ok.inj same
    obtain ⟨_, _, _, rfl, _, _⟩ := ofThreshold_eq_ok made
    obtain ⟨_, _, _, rfl, _, _⟩ := ofThreshold_eq_ok remade
    exact ⟨_, rfl, Prod.ext rfl conditions.symm⟩

end Fulfillment

namespace Details

open Fulfillment

/-- One description from another by moving parts, at any nodes. -/
inductive Rearranged : Details → Details → Prop where
  | refl (d : Details) : Rearranged d d
  | parts {d : Details} {subs moved order : List Details} (held : d.subs = some subs)
      (length : subs.length = moved.length)
      (each : ∀ pair ∈ subs.zip moved, Rearranged pair.1 pair.2) (perm : order.Perm moved) :
      Rearranged d { d with subs := some order }

theorem Rearranged.order {d : Details} {subs order : List Details} (held : d.subs = some subs)
    (perm : order.Perm subs) : Rearranged d { d with subs := some order } :=
  .parts held rfl
    (fun _ mem => List.forall₂_zip (List.forall₂_same.2 fun part _ => .refl part) mem) perm

theorem declared_of_share {features : UInt64} {weight : Option UInt32} {f g f' : Fulfillment}
    (same : g.commitment.share = f.commitment.share)
    (ok : declared features weight f = .ok f') :
    ∃ g', declared features weight g = .ok g' ∧ g'.commitment.share = f'.commitment.share := by
  have condition : g.condition = f.condition := congrArg Prod.snd same
  obtain ⟨found, ⟨rfl, rfl⟩ | ⟨n, w, rfl, valid, rfl⟩⟩ := declared_eq_ok.1 ok
  · exact ⟨g, declared_eq_ok.2 ⟨by rw [condition, found], Or.inl ⟨rfl, rfl⟩⟩, same⟩
  · refine ⟨g.withWeight w,
      declared_eq_ok.2 ⟨by rw [condition, found], Or.inr ⟨n, w, rfl, valid, rfl⟩⟩, ?_⟩
    rw [share_commitment, share_commitment, weight_withWeight, weight_withWeight,
      condition_withWeight, condition_withWeight, condition]

theorem mapM_of_zip {subs moved : List Details} {parts : List Fulfillment}
    (length : subs.length = moved.length)
    (each : ∀ pair ∈ subs.zip moved, ∀ {f : Fulfillment}, pair.1.toFulfillment = .ok f →
      ∃ g, pair.2.toFulfillment = .ok g ∧ g.commitment.share = f.commitment.share)
    (built : List.Forall₂ (fun d f => toFulfillment d = .ok f) subs parts) :
    ∃ others, moved.mapM toFulfillment = .ok others ∧
      others.map (fun sub => sub.commitment.share) =
        parts.map fun sub => sub.commitment.share := by
  induction built generalizing moved with
  | nil =>
    rw [List.eq_nil_of_length_eq_zero length.symm]
    exact ⟨[], rfl, rfl⟩
  | @cons d f subs parts first _ ih =>
    obtain ⟨d', moved, rfl⟩ := List.exists_cons_of_length_eq_add_one length.symm
    rw [List.zip_cons_cons, List.forall_mem_cons] at each
    obtain ⟨g, here, same⟩ := each.1 first
    obtain ⟨others, rest, shares⟩ := ih (Nat.succ.inj length) each.2
    refine ⟨g :: others, ?_, by rw [List.map_cons, List.map_cons, same, shares]⟩
    rw [List.mapM_cons, bind_of_ok here, bind_of_ok rest]
    rfl

theorem Rearranged.toFulfillment {d d' : Details} (rearranged : Rearranged d d') {f : Fulfillment}
    (ok : d.toFulfillment = .ok f) :
    ∃ g, d'.toFulfillment = .ok g ∧ g.commitment.share = f.commitment.share := by
  induction rearranged generalizing f with
  | refl d => exact ⟨f, ok, rfl⟩
  | @parts d subs moved order held length each perm ih =>
    obtain ⟨whole, describes, ok⟩ := toFulfillment_eq_ok.1 ok
    suffices found : ∃ g, Describes { d with subs := some order } g ∧
        g.commitment.share = whole.commitment.share by
      obtain ⟨g, moved, same⟩ := found
      obtain ⟨g', ok', same'⟩ := declared_of_share same ok
      exact ⟨g', toFulfillment_eq_ok.2 ⟨g, moved, ok'⟩, same'⟩
    -- Nothing but a threshold looks at its parts.
    cases describes with
    | whole kind uri consistent => exact ⟨_, .whole kind uri consistent, rfl⟩
    | key kind type named read made => exact ⟨_, .key kind type named read made, rfl⟩
    | threshold kind type needs built made =>
      rw [held, Option.getD_some] at built
      obtain ⟨others, rebuilt, shares⟩ := mapM_of_zip length
        (fun pair mem {_} found => ih pair mem found) (mapM_eq_ok built)
      obtain ⟨reordered, built', perm'⟩ := mapM_perm perm.symm rebuilt
      have agree := (perm'.map fun sub => sub.commitment.share).symm
      rw [shares] at agree
      obtain ⟨g, made', same⟩ := ofThreshold_of_shares agree made
      exact ⟨g, .threshold kind type needs built' made', same⟩

/-- The description of what is built from a description is normal, and has the condition; so has
what is built when parts are moved, at any nodes. -/
theorem normal_form {d : Details} {f : Fulfillment} (ok : d.toFulfillment = .ok f) :
    (∃ g, (f.details none).toFulfillment = .ok g ∧ g.condition = f.condition ∧
      g.details none = f.details none) ∧
    ∀ d', Rearranged d d' → ∃ g, d'.toFulfillment = .ok g ∧ g.condition = f.condition := by
  constructor
  · have built := (wellFormed_of_toFulfillment ok).toFulfillment_details none
    refine ⟨_, built, ?_, ?_⟩
    · rw [condition_withWeight, condition_publicPart]
    · rw [details_withWeight, details_publicPart]
  · intro d' rearranged
    obtain ⟨g, built, same⟩ := rearranged.toFulfillment ok
    exact ⟨g, built, congrArg Prod.snd same⟩

theorem normal_form_sample : ∃ (d d' : Details) (f : Fulfillment), d.toFulfillment = .ok f ∧
    Rearranged d d' ∧ d ≠ d' ∧ f.details none ≠ d ∧
    (∃ g, (f.details none).toFulfillment = .ok g ∧ g.condition = f.condition ∧
      g.details none = f.details none) ∧
    ∃ g, d'.toFulfillment = .ok g ∧ g.condition = f.condition := by
  obtain ⟨c, constructed⟩ := exists_constructed
  have wellFormed := constructed.wellFormed
  have plain := wellFormed.toFulfillment_details (some sampleWeight)
  obtain ⟨d, own⟩ : ∃ d, d = (Fulfillment.threshold Weight.one 2 sampleParts
    (.revealed [true, false]) c).details (some sampleWeight.val) := ⟨_, rfl⟩
  have held : d.subs = some (listDetails sampleParts) := by rw [own]; rfl
  have turned := Rearranged.order held (List.reverse_perm _)
  have back := Rearranged.order (d := { d with subs := some (listDetails sampleParts).reverse }) rfl
    (List.reverse_perm _).symm
  obtain ⟨f, built, _⟩ := turned.toFulfillment (own ▸ plain)
  obtain ⟨normal, moved⟩ := normal_form built
  have apart : (listDetails sampleParts).reverse ≠ listDetails sampleParts := by decide +kernel
  refine ⟨_, _, f, built, back, ?_, ?_, normal, moved _ back⟩
  · intro same
    exact apart (Option.some.inj (congrArg Details.subs same))
  · intro same
    have weights := congrArg Details.weight same
    rw [own] at weights
    cases f <;> cases weights

end Details

end CryptoConditions
