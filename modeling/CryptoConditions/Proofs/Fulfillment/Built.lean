import CryptoConditions.Proofs.Fulfillment.Payload

/-! Fulfillments that are put together keep the invariant, whatever they are put
together from. -/

namespace CryptoConditions.Fulfillment

/-- Put together from given fulfillments, and from keys, bytes, times and conditions. -/
inductive Built (given : Fulfillment → Prop) : Fulfillment → Prop where
  | given {f : Fulfillment} (known : given f) : Built given f
  | preimage (bytes : Bytes) : Built given (.preimage Weight.one bytes)
  | prefixed {lead : Bytes} {sub f : Fulfillment} (part : Built given sub)
      (made : ofPrefix lead sub = .ok f) : Built given f
  | ed25519 {key : Ed25519.PublicKey} {signature : Option Bytes} {f : Fulfillment}
      (made : ofEd25519 key signature = .ok f) : Built given f
  | rsa {key : Rsa.PublicKey} {signature : Option Bytes} {f : Fulfillment}
      (made : ofRsa key signature = .ok f) : Built given f
  | threshold {needed : UInt32} {subs : List Fulfillment} {f : Fulfillment}
      (parts : ∀ sub ∈ subs, Built given sub) (made : ofThreshold needed subs = .ok f) :
      Built given f
  | timeout (expiry : UInt64) : Built given (ofTimeout expiry)
  | withheld {type : ConditionType} {features : Features} {hash : Bytes} {size : UInt64}
      {c : Condition} (made : Condition.ofParts type features hash size = .ok c) (w : Weight)
      (publicKey : Option Bytes) : Built given (.withheld ⟨c, w, publicKey⟩)
  | reduced {f : Fulfillment} (whole : Built given f) : Built given (.withheld f.commitment)
  | weighted {f : Fulfillment} (w : Weight) (part : Built given f) : Built given (f.withWeight w)

theorem ofEd25519_eq_ok {key : Ed25519.PublicKey} {signature : Option Bytes} {f : Fulfillment}
    (made : ofEd25519 key signature = .ok f) :
    ∃ s : Option (Octets 64), f = ed25519 Weight.one key s ∧
      s.map Octets.bytes = signature := by
  unfold ofEd25519 at made
  split at made
  · cases made
    exact ⟨none, rfl, rfl⟩
  · split at made
    · next found =>
      cases made
      exact ⟨some _, rfl, congrArg some (Octets.bytes_of_ofBytes? found)⟩
    · cases made

theorem ofRsa_eq_ok {key : Rsa.PublicKey} {signature : Option Bytes} {f : Fulfillment}
    (made : ofRsa key signature = .ok f) :
    ∃ (long : Rsa.minLength ≤ key.modulus.length) (s : Option (Octets key.modulus.length)),
      f = rsa Weight.one key long s ∧ s.map Octets.bytes = signature := by
  by_cases long : Rsa.minLength ≤ key.modulus.length
  · simp only [ofRsa, dif_pos long] at made
    split at made
    · cases made
      exact ⟨long, none, rfl, rfl⟩
    · split at made
      · next found =>
        cases made
        exact ⟨long, some _, rfl, congrArg some (Octets.bytes_of_ofBytes? found)⟩
      · cases made
  · simp only [ofRsa, dif_neg long] at made
    cases made

theorem share_revealed {part : Commitment} {sub : Fulfillment} {n : Nat}
    (shown : (share part sub).revealed = some n) :
    ∃ payload, sub.payload = .ok payload ∧ n = (frame sub.type payload).length := by
  simp only [share] at shown
  split at shown
  · next binary written =>
    obtain ⟨payload, paid, rfl⟩ := binary_eq_ok.1 written
    cases shown
    exact ⟨payload, paid, rfl⟩
  · cases shown

theorem entries_of_choice {subs : List Fulfillment} {flags : List Bool} {length weight : Nat}
    (choice : Threshold.Choice (subs.map fun sub => share sub.commitment sub) flags length weight) :
    flags.length = subs.length ∧ revealedWeight (subs.zip flags) = weight ∧
      ∃ shown, entries subs flags = .ok shown ∧ shown.length = length := by
  induction subs generalizing flags length weight with
  | nil =>
    cases choice
    exact ⟨rfl, rfl, [], by simp [entries], rfl⟩
  | cons sub subs ih =>
    rw [List.map_cons] at choice
    cases choice with
    | hide rest =>
      obtain ⟨long, weights, shown, written, lengths⟩ := ih rest
      refine ⟨by simp [long], by simpa [revealedWeight] using weights, _,
        entries_false.2 ⟨shown, written, rfl⟩, ?_⟩
      rw [List.length_append, Threshold.hiddenEntry_length, lengths]
      rfl
    | reveal can rest =>
      obtain ⟨long, weights, shown, written, lengths⟩ := ih rest
      obtain ⟨payload, paid, rfl⟩ := share_revealed can
      refine ⟨by simp [long], ?_, _, entries_true.2 ⟨payload, shown, paid, written, rfl⟩, ?_⟩
      · simp only [revealedWeight] at weights
        simp [revealedWeight, weights, share, commitment]
      · rw [List.length_append, Threshold.revealedEntry_length, lengths]
        rfl

theorem ofThreshold_eq (needed : UInt32) (subs : List Fulfillment) :
    ofThreshold needed subs = (do
      Threshold.checkShape needed subs.length
      let order := Threshold.arranged commitment subs
      let c ← Threshold.condition needed (order.map commitment)
      return threshold Weight.one needed order
        (Threshold.select needed (order.map fun sub => share sub.commitment sub)) c) := by
  have pairs := Threshold.arrange_pairs commitment subs
  have seconds : ((Threshold.arranged commitment subs).map fun sub => (sub.commitment, sub)).map
      Prod.snd = Threshold.arranged commitment subs := by
    rw [List.map_map]
    exact List.map_id _
  rw [ofThreshold, pairs]
  dsimp only
  rw [seconds, List.map_map, List.map_map]
  rfl

theorem ofThreshold_eq_ok {needed : UInt32} {subs : List Fulfillment} {f : Fulfillment}
    (made : ofThreshold needed subs = .ok f) :
    ∃ order selection c, f = threshold Weight.one needed order selection c ∧
      order.Perm subs ∧ Assembled needed order selection c := by
  simp only [ofThreshold_eq, bind_eq_ok, pure_eq_ok] at made
  obtain ⟨_, shape, c, conditioned, rfl⟩ := made
  have perm := Threshold.arranged_perm commitment subs
  refine ⟨_, _, c, rfl, perm,
    ⟨by rw [perm.length_eq]; exact shape, Threshold.arranged_sorted _ _, conditioned, ?_⟩⟩
  intro flags selected
  obtain ⟨length, weight, choice, enough, fits⟩ := Threshold.select_revealed selected
  obtain ⟨long, weights, shown, written, lengths⟩ := entries_of_choice choice
  refine ⟨long, by rw [weights]; exact enough, shown, written, ?_⟩
  rw [List.length_map] at fits
  rw [lengths]
  exact fits

theorem selection_of_ofThreshold {needed number : UInt32} {subs order : List Fulfillment}
    {w : Weight} {selection : Selection} {c : Condition}
    (made : ofThreshold needed subs = .ok (threshold w number order selection c)) :
    selection = Threshold.select needed (order.map fun sub => share sub.commitment sub) := by
  simp only [ofThreshold_eq, bind_eq_ok, pure_eq_ok] at made
  obtain ⟨_, _, _, _, same⟩ := made
  cases same
  rfl

theorem ofThreshold_of_sorted {needed : UInt32} {subs : List Fulfillment} {c : Condition}
    (shape : Threshold.checkShape needed subs.length = .ok ())
    (sorted : (subs.map commitment).Pairwise fun a b => a.precedes b = true)
    (conditioned : Threshold.condition needed (subs.map commitment) = .ok c) :
    ofThreshold needed subs = .ok (threshold Weight.one needed subs
      (Threshold.select needed (subs.map fun sub => share sub.commitment sub)) c) := by
  rw [ofThreshold_eq, Threshold.arranged_of_sorted commitment sorted, bind_of_ok shape]
  exact bind_of_ok conditioned _

theorem Built.wellFormed {given : Fulfillment → Prop} (kept : ∀ f, given f → f.WellFormed)
    {f : Fulfillment} (built : Built given f) : f.WellFormed := by
  induction built with
  | given known => exact kept _ known
  | preimage bytes => exact .preimage _ bytes
  | prefixed _ made ih =>
    obtain ⟨_, rfl⟩ := ofPrefix_eq_ok.1 made
    exact .prefixed ih made
  | ed25519 made =>
    obtain ⟨_, rfl, _⟩ := ofEd25519_eq_ok made
    exact .ed25519 _ _ _
  | rsa made =>
    obtain ⟨_, _, rfl, _⟩ := ofRsa_eq_ok made
    exact .rsa _ _ _ _
  | threshold _ made ih =>
    obtain ⟨order, _, _, rfl, perm, assembled⟩ := ofThreshold_eq_ok made
    exact .threshold (fun sub mem => ih sub (perm.mem_iff.1 mem)) assembled
  | timeout expiry => exact .timeout _ expiry
  | withheld made w key => exact .withheld (Condition.ofParts_eq_ok made).1
  | reduced _ ih => exact .withheld ih.condition.1
  | weighted w _ ih => exact ih.withWeight w

end CryptoConditions.Fulfillment
