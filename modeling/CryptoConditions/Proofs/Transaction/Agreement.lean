import Mathlib.Data.List.Forall2
import CryptoConditions.Proofs.Transaction.Consent

/-! Transactions that are one document, whatever fulfillments its inputs carry. All that is signed
and hashed is the same of them, and an input passes its check in the one as it does in the other
with the same fulfillment. -/

namespace CryptoConditions.Transaction

def SameInput (i j : Input) : Prop :=
  i.owners = j.owners ∧ i.spends = j.spends

/-- All fields agree but the id, the metadata and the fulfillments of inputs. -/
structure SameBody (a b : Transaction) : Prop where
  version : a.version = b.version
  operation : a.operation = b.operation
  asset : a.asset = b.asset
  inputs : List.Forall₂ SameInput a.inputs b.inputs
  outputs : a.outputs = b.outputs
  timestamp : a.timestamp = b.timestamp

/-- All fields agree but the fulfillments of inputs. -/
structure SameDocument (a b : Transaction) : Prop extends SameBody a b where
  id : a.id = b.id
  metadata : a.metadata = b.metadata

variable {a b c t t' : Transaction}

def bare (input : Input) : Input :=
  ⟨input.owners, input.spends, none⟩

theorem bare_eq_bare {i j : Input} : bare i = bare j ↔ SameInput i j := by
  simp [bare, SameInput]

theorem map_bare_eq {is js : List Input} :
    is.map bare = js.map bare ↔ List.Forall₂ SameInput is js := by
  rw [← List.forall₂_eq_eq_eq, List.forall₂_map_left_iff, List.forall₂_map_right_iff]
  simp only [bare_eq_bare]

theorem unsigned_eq (t : Transaction) : t.unsigned = t.withInputs (t.inputs.map bare) := rfl

theorem sameDocument_iff : SameDocument a b ↔ a.unsigned = b.unsigned := by
  constructor
  · intro same
    have inputs := map_bare_eq.2 same.inputs
    simp only [unsigned_eq, withInputs, same.id, same.version, same.operation, same.asset,
      same.metadata, inputs, same.outputs, same.timestamp]
  · intro equal
    simp only [unsigned_eq, withInputs, mk.injEq] at equal
    obtain ⟨id, version, operation, asset, metadata, inputs, outputs, timestamp⟩ := equal
    exact ⟨⟨version, operation, asset, map_bare_eq.1 inputs, outputs, timestamp⟩, id, metadata⟩

namespace SameDocument

theorem refl (t : Transaction) : SameDocument t t :=
  sameDocument_iff.2 rfl

theorem trans (first : SameDocument a b) (second : SameDocument b c) : SameDocument a c :=
  sameDocument_iff.2 ((sameDocument_iff.1 first).trans (sameDocument_iff.1 second))

theorem of_inputs {inputs : List Input} (same : List.Forall₂ SameInput t.inputs inputs) :
    SameDocument t (t.withInputs inputs) :=
  ⟨⟨rfl, rfl, rfl, same, rfl, rfl⟩, rfl, rfl⟩

variable (same : SameDocument t t')
include same

theorem signingBytes : t'.signingBytes = t.signingBytes := by
  simp only [Transaction.signingBytes, signingText, sameDocument_iff.1 same]

theorem calculateId : t'.calculateId = t.calculateId := by
  simp only [Transaction.calculateId, sameDocument_iff.1 same]

theorem hasValidId : t'.hasValidId = t.hasValidId := by
  simp only [Transaction.hasValidId, same.calculateId, same.id]

end SameDocument

section Checks

def fulfillmentAt (index : Nat) (t : Transaction) : Option String :=
  t.inputs[index]?.bind Input.fulfillment

/-- The check of one input of a document, as if it carried this fulfillment. -/
def checkWith (index : Nat) (fulfillment : Option String) (t : Transaction) :
    Except TransactionError Unit :=
  match t.inputs[index]? with
  | none => .error (.inputOutOfRange index)
  | some input => checkInput t.signingBytes ⟨input.owners, input.spends, fulfillment⟩

def checkAt (index : Nat) (t : Transaction) : Except TransactionError Unit :=
  match t.inputs[index]? with
  | none => .error (.inputOutOfRange index)
  | some input => checkInput t.signingBytes input

theorem checkAt_eq (index : Nat) (t : Transaction) :
    t.checkAt index = t.checkWith index (t.fulfillmentAt index) := by
  rw [checkAt, checkWith, fulfillmentAt]
  cases t.inputs[index]? <;> rfl

theorem SameDocument.checkWith (same : SameDocument t t') (index : Nat)
    (fulfillment : Option String) :
    t'.checkWith index fulfillment = t.checkWith index fulfillment := by
  rw [Transaction.checkWith, Transaction.checkWith, same.signingBytes]
  have bares : t.inputs[index]?.map bare = t'.inputs[index]?.map bare := by
    rw [← List.getElem?_map, ← List.getElem?_map, map_bare_eq.2 same.inputs]
  cases here : t.inputs[index]? with
  | none =>
    rw [here, Option.map_none, eq_comm, Option.map_eq_none_iff] at bares
    rw [bares]
  | some input =>
    rw [here, Option.map_some, eq_comm, Option.map_eq_some_iff] at bares
    obtain ⟨input', there, equal⟩ := bares
    obtain ⟨owners, spends⟩ := bare_eq_bare.1 equal
    simp only [there, owners, spends]

theorem checkInputs_of_each {message : Bytes} {inputs : List Input}
    (each : ∀ input ∈ inputs, checkInput message input = .ok ()) :
    checkInputs message inputs = .ok true := by
  induction inputs with
  | nil => rfl
  | cons input inputs ih =>
    rw [List.forall_mem_cons] at each
    simp only [checkInputs, each.1]
    exact ih each.2

theorem isFulfilled_iff : t.isFulfilled = .ok true ↔
    t.inputs ≠ [] ∧ ∀ index < t.inputs.length, t.checkAt index = .ok () := by
  have passes {index : Nat} (inside : index < t.inputs.length) :
      t.checkAt index = checkInput t.signingBytes t.inputs[index] := by
    rw [checkAt, List.getElem?_eq_getElem inside]
  by_cases empty : t.inputs = []
  · simp [isFulfilled, empty]
  · have filled : t.inputs.isEmpty = false := List.isEmpty_eq_false_iff.2 empty
    rw [isFulfilled, filled, if_neg Bool.false_ne_true]
    constructor
    · intro fulfilled
      refine ⟨empty, fun index inside => ?_⟩
      rw [passes inside]
      exact checkInputs_eq_ok fulfilled _ (List.getElem_mem inside)
    · rintro ⟨_, all⟩
      refine checkInputs_of_each fun input mem => ?_
      obtain ⟨index, inside, rfl⟩ := List.getElem_of_mem mem
      rw [← passes inside]
      exact all index inside

end Checks

end CryptoConditions.Transaction
