import CryptoConditions.Proofs.Fulfillment.Canonical
import CryptoConditions.Proofs.Fulfillment.Invariant
import CryptoConditions.Proofs.Transaction.Atomic

/-! Fulfillments are put on a transaction and taken off again. What is taken off is what was put
on, as far as it shows in a payload, and the document is left as it is signed. What was taken off
can be put on again: it may be written in another way then, but it is read as the same, so the
check of each input comes out as it did. -/

namespace CryptoConditions.Transaction

variable {t t' : Transaction} {fs ds : List Fulfillment} {found : List (Option Fulfillment)}

theorem parsed_eq_ok {input : Input} {o : Option Fulfillment} : parsed input = .ok o ↔
    input.fulfillment = none ∧ o = none ∨
      ∃ uri f, input.fulfillment = some uri ∧ Fulfillment.ofUri uri = .ok f ∧ o = some f := by
  rw [parsed]
  cases input.fulfillment with
  | none => simp [eq_comm]
  | some uri => simp [map_eq_ok]

theorem inputFulfillment_of_detach {bare : Transaction} (ok : t.detach = .ok (found, bare))
    (index : Nat) (inside : index < found.length) :
    t.inputFulfillment index = .ok found[index] := by
  have read := mapM_eq_ok (detach_eq_ok.1 ok).1
  have there : index < t.inputs.length := by rw [read.length_eq]; exact inside
  have here : parsed t.inputs[index] = .ok found[index] := read.get there inside
  rw [inputFulfillment, List.getElem?_eq_getElem there]
  dsimp only
  rw [here, ofCondition]

theorem unsigned_unsigned (t : Transaction) : t.unsigned.unsigned = t.unsigned := by
  simp [unsigned]

theorem unsigned_detach (t : Transaction) :
    t.unsigned.detach = .ok (t.inputs.map fun _ => none, t.unsigned) := by
  refine detach_eq_ok.2 ⟨?_, (unsigned_unsigned t).symm⟩
  change (t.inputs.map bare).mapM parsed = _
  induction t.inputs with
  | nil => rfl
  | cons input inputs ih =>
    rw [List.map_cons, List.mapM_cons, bind_of_ok (parsed_eq_ok.2 (Or.inl ⟨rfl, rfl⟩)),
      bind_of_ok ih]
    rfl

section Checks

variable {message : Bytes} {i j : Input} {is js : List Input}

theorem checkInput_of_parsed {o : Option Fulfillment} (same : SameInput i j)
    (first : parsed i = .ok o) (second : parsed j = .ok o) :
    checkInput message j = checkInput message i := by
  have keys : j.keys = i.keys := by rw [Input.keys, Input.keys, same.1]
  rcases parsed_eq_ok.1 first with ⟨none, rfl⟩ | ⟨uri, f, some, read, rfl⟩
  · rcases parsed_eq_ok.1 second with ⟨none', _⟩ | ⟨_, _, _, _, other⟩
    · simp only [checkInput, none, none']
    · cases other
  · rcases parsed_eq_ok.1 second with ⟨_, other⟩ | ⟨uri', _, some', read', same⟩
    · cases other
    · cases same
      simp only [checkInput, some, some', read, read', keys]

theorem checkInputs_of_parsed (same : List.Forall₂ SameInput is js)
    (first : List.Forall₂ (fun i o => parsed i = .ok o) is found)
    (second : List.Forall₂ (fun j o => parsed j = .ok o) js found) :
    checkInputs message js = checkInputs message is := by
  induction same generalizing found with
  | nil => rfl
  | cons same _ ih =>
    cases first with
    | cons first rest =>
      cases second with
      | cons second rest' =>
        rw [checkInputs, checkInputs, checkInput_of_parsed same first second, ih rest rest']

theorem isFulfilled_of_detach {a b : Transaction} (same : SameDocument t t')
    (first : t.detach = .ok (found, a)) (second : t'.detach = .ok (found, b)) :
    t'.isFulfilled = t.isFulfilled := by
  have checks : checkInputs t.signingBytes t'.inputs = checkInputs t.signingBytes t.inputs :=
    checkInputs_of_parsed same.inputs (mapM_eq_ok (detach_eq_ok.1 first).1)
      (mapM_eq_ok (detach_eq_ok.1 second).1)
  have empty : t'.inputs.isEmpty = t.inputs.isEmpty := by
    rw [Bool.eq_iff_iff, List.isEmpty_iff_length_eq_zero, List.isEmpty_iff_length_eq_zero,
      same.inputs.length_eq]
  rw [isFulfilled, isFulfilled, same.signingBytes, checks, empty]

end Checks

section Links

variable {R : Fulfillment → Fulfillment → Prop}

theorem parsed_of_links {uris : List String} {inputs : List Input}
    (links : List.Forall₂ (fun f text => Fulfillment.uri f = .ok text) fs uris)
    (count : fs.length = inputs.length)
    (read : ∀ f ∈ fs, ∀ text, f.uri = .ok text → ∃ d, Fulfillment.ofUri text = .ok d ∧ R f d) :
    ∃ ds, List.Forall₂ R fs ds ∧
      ((inputs.zip uris).map linked).mapM parsed = .ok (ds.map some) := by
  induction links generalizing inputs with
  | nil => exact ⟨[], .nil, by simp; rfl⟩
  | cons link _ ih =>
    obtain ⟨input, inputs, rfl⟩ := List.exists_cons_of_length_eq_add_one count.symm
    rw [List.forall_mem_cons] at read
    obtain ⟨d, here, related⟩ := read.1 _ link
    obtain ⟨ds, paired, others⟩ := ih (Nat.succ.inj count) read.2
    refine ⟨d :: ds, .cons related paired, ?_⟩
    rw [List.zip_cons_cons, List.map_cons, List.mapM_cons,
      bind_of_ok (parsed_eq_ok.2 (Or.inr ⟨_, d, rfl, here, rfl⟩)), bind_of_ok others]
    rfl

theorem detach_of_attach (ok : t.attach fs = .ok t')
    (read : ∀ f ∈ fs, ∀ text, f.uri = .ok text → ∃ d, Fulfillment.ofUri text = .ok d ∧ R f d) :
    ∃ ds, List.Forall₂ R fs ds ∧ t'.detach = .ok (ds.map some, t.unsigned) := by
  have same := (@Call.allows_of_answer t t' (.attach fs) ok).document
  obtain ⟨count, uris, links, made⟩ := attach_eq_ok.1 ok
  obtain ⟨ds, paired, found⟩ := parsed_of_links (mapM_eq_ok links) count read
  refine ⟨ds, paired, detach_eq_ok.2 ⟨?_, sameDocument_iff.1 same⟩⟩
  rw [made]
  exact found

end Links

/-- A fulfillment whose written form, if it has one, can be read: it is not nested too deep, and
its payload has a length that fits 64 bits. -/
structure Attachable (f : Fulfillment) : Prop where
  obtained : f.Obtained
  shallow : ∀ depth g, f.Carries depth g → depth ≤ Fulfillment.maxNesting
  small : ∀ shown, f.payload = .ok shown → shown.length < 2 ^ 64

def Conveys (f d : Fulfillment) : Prop :=
  d.condition = f.condition ∧ d.payload = f.payload

theorem Attachable.conveyed {f : Fulfillment} (attachable : Attachable f) {text : String}
    (link : f.uri = .ok text) : ∃ d, Fulfillment.ofUri text = .ok d ∧ Conveys f d := by
  obtain ⟨shown, paid⟩ := Fulfillment.uri_iff_payload.1 ⟨text, link⟩
  have written := attachable.obtained.wellFormed.written paid
  have shallow := Fulfillment.carries_le_iff.1 attachable.shallow
  obtain ⟨own, link', read⟩ := written.uri_received (attachable.small shown paid) shallow
  cases link.symm.trans link'
  exact ⟨f.received, read, Fulfillment.condition_received f,
    written.payload_received.trans paid.symm⟩

theorem uri_of_detach {bare : Transaction} (ok : t.detach = .ok (ds.map some, bare)) :
    ∀ d ∈ ds, ∃ text, d.uri = .ok text ∧ Fulfillment.ofUri text = .ok d := by
  intro d mem
  obtain ⟨_, _, carried⟩ := exists_of_mem_right
    (mapM_eq_ok (detach_eq_ok.1 ok).1) (List.mem_map_of_mem (f := some) mem)
  obtain ⟨_, none⟩ | ⟨_, _, _, read, same⟩ := parsed_eq_ok.1 carried
  · cases none
  · cases same
    exact Fulfillment.relinked_of_ofUri read

theorem reattached_of_detach {bare : Transaction} (ok : t.detach = .ok (ds.map some, bare)) :
    ∃ t', bare.attach ds = .ok t' ∧ t'.detach = .ok (ds.map some, bare) ∧ SameDocument t t' := by
  have relinked := uri_of_detach ok
  obtain ⟨found, rfl⟩ := detach_eq_ok.1 ok
  have count : ds.length = t.unsigned.inputs.length := by
    have length := (mapM_eq_ok found).length_eq
    rw [List.length_map] at length
    rw [unsigned, List.length_map, length]
  obtain ⟨uris, made, _⟩ := mapM_of_each relinked
  have attached := attach_eq_ok.2 ⟨count, uris, made, rfl⟩
  obtain ⟨others, same, detached⟩ := detach_of_attach (R := fun f d => f = d) attached
    fun d mem text link => by
      obtain ⟨_, link', read⟩ := relinked d mem
      cases link.symm.trans link'
      exact ⟨d, read, rfl⟩
  rw [List.forall₂_eq_eq_eq] at same
  cases same
  have document := (@Call.allows_of_answer _ _ (.attach ds) attached).document
  rw [unsigned_unsigned] at detached
  rw [sameDocument_iff, unsigned_unsigned] at document
  exact ⟨_, attached, detached, sameDocument_iff.2 document⟩

/-- Putting fulfillments on a transaction and taking them off are inverse. Where fulfillments are
put on, they are found on their inputs by condition and payload, they are taken off in this order,
and what is left is the document that is signed, without fulfillments. Where all inputs had
fulfillments, these can be put on again; they are taken off as they were, and the check comes out
as before. -/
theorem detach_attach_inverse :
    (∀ (t t' : Transaction) (fs : List Fulfillment), (∀ f ∈ fs, Attachable f) →
      t.attach fs = .ok t' →
      ∃ ds bare, List.Forall₂ Conveys fs ds ∧ ds.length = t'.inputs.length ∧
        (∀ index (inside : index < ds.length),
          t'.inputFulfillment index = .ok (some ds[index])) ∧
        t'.detach = .ok (ds.map some, bare) ∧
        utf8 bare.toJson.compact = t.signingBytes ∧ t'.signingBytes = t.signingBytes ∧
        bare.detach = .ok (bare.inputs.map fun _ => none, bare)) ∧
    ∀ (t bare : Transaction) (ds : List Fulfillment), t.detach = .ok (ds.map some, bare) →
      ∃ t', bare.attach ds = .ok t' ∧ t'.detach = .ok (ds.map some, bare) ∧
        t'.isFulfilled = t.isFulfilled := by
  constructor
  · intro t t' fs attachable ok
    obtain ⟨ds, conveyed, detached⟩ := detach_of_attach ok
      fun f mem text link => (attachable f mem).conveyed link
    have same := (@Call.allows_of_answer t t' (.attach fs) ok).document
    have count : ds.length = t'.inputs.length := by
      rw [← conveyed.length_eq, (attach_eq_ok.1 ok).1, same.inputs.length_eq]
    refine ⟨ds, t.unsigned, conveyed, count, fun index inside => ?_, detached, rfl,
      same.signingBytes, ?_⟩
    · have found := inputFulfillment_of_detach detached index (by rwa [List.length_map])
      rwa [List.getElem_map] at found
    · rw [unsigned_detach, unsigned, List.map_map]
      rfl
  · intro t bare ds ok
    obtain ⟨t', attached, detached, same⟩ := reattached_of_detach ok
    exact ⟨t', attached, detached, isFulfilled_of_detach same ok detached⟩

section Samples

theorem neutral_detach :
    ∃ f, neutralTransaction.detach = .ok ([f].map some, neutralTransaction.unsigned) := by
  obtain ⟨_, passed⟩ := isFulfilled_iff.1 neutral_fulfilled
  have first : checkInput neutralTransaction.signingBytes neutralInput = .ok () :=
    passed 0 (by decide)
  obtain ⟨uri, f, _, _, attached, read, _⟩ := checkInput_eq_ok first
  have carried : parsed neutralInput = .ok (some f) :=
    parsed_eq_ok.2 (Or.inr ⟨uri, f, attached, read, rfl⟩)
  refine ⟨f, detach_eq_ok.2 ⟨?_, rfl⟩⟩
  rw [neutralTransaction, List.mapM_cons, bind_of_ok carried]
  rfl

open Fulfillment in
theorem attachable_sample : ∃ f text, Attachable f ∧ f.uri = .ok text := by
  obtain ⟨c, made⟩ := ofThreshold_sampleParts
  have obtained : Obtained (.threshold Weight.one 2 sampleParts (.revealed [true, false]) c) :=
    Built.threshold built_sampleParts made
  obtain ⟨shown, paid⟩ := obtained.wellFormed.payload rfl
  refine ⟨_, _, ⟨obtained, ?_, ?_⟩, by rw [uri, bind_of_ok paid]; rfl⟩
  · rw [carries_le_iff, shownDepth]
    decide
  · intro shown paid
    exact (obtained.wellFormed.written paid).length_lt rfl

theorem detach_attach_inverse_neutral :
    (∃ f t', Attachable f ∧ neutralTransaction.attach [f] = .ok t' ∧
      ∃ ds bare, List.Forall₂ Conveys [f] ds ∧ ds.length = t'.inputs.length ∧
        (∀ index (inside : index < ds.length),
          t'.inputFulfillment index = .ok (some ds[index])) ∧
        t'.detach = .ok (ds.map some, bare) ∧
        utf8 bare.toJson.compact = neutralTransaction.signingBytes ∧
        t'.signingBytes = neutralTransaction.signingBytes ∧
        bare.detach = .ok (bare.inputs.map fun _ => none, bare)) ∧
    ∃ f bare t', neutralTransaction.detach = .ok ([f].map some, bare) ∧
      bare.attach [f] = .ok t' ∧ t'.detach = .ok ([f].map some, bare) ∧
      t'.isFulfilled = .ok true := by
  obtain ⟨put, taken⟩ := detach_attach_inverse
  constructor
  · obtain ⟨f, text, attachable, link⟩ := attachable_sample
    have links : [f].mapM Fulfillment.uri = .ok [text] := by
      rw [List.mapM_cons, bind_of_ok link]
      rfl
    have attached := attach_eq_ok (t := neutralTransaction).2 ⟨rfl, [text], links, rfl⟩
    exact ⟨f, _, attachable, attached,
      put _ _ [f] (List.forall_mem_singleton.2 attachable) attached⟩
  · obtain ⟨f, detached⟩ := neutral_detach
    obtain ⟨t', attached, again, same⟩ := taken _ _ [f] detached
    exact ⟨f, _, t', detached, attached, again, same.trans neutral_fulfilled⟩

end Samples

end CryptoConditions.Transaction
