import CryptoConditions.Fulfillment.Validation
import CryptoConditions.Proofs.Fulfillment.RoundTrip

/-! What the written form proves. At the other end a threshold counts the parts
that were revealed and no others, so less may hold there than holds here. It is
as much where all that was revealed holds. -/

namespace CryptoConditions.Fulfillment

mutual

/-- Whether the revealed part alone satisfies the condition for a message. -/
def shownHolds : Fulfillment → Bytes → Bool
  | preimage .., _ => true
  | prefixed _ lead sub _, message => sub.shownHolds (lead ++ message)
  | ed25519 _ key (some signature), message => Ed25519.verify key message signature.bytes
  | rsa _ key _ (some signature), message => Rsa.verify key message signature.bytes
  | threshold _ needed subs (.revealed flags) _, message =>
    decide (needed.toNat ≤ shownWeight subs flags message)
  | timeout _ expiry, message => (time? message).any fun now => decide (now ≤ (expiry.toNat : Int))
  | ed25519 _ _ none, _ | rsa _ _ _ none, _ | threshold .., _ | withheld _, _ => false

def shownWeight : List Fulfillment → List Bool → Bytes → Nat
  | sub :: subs, true :: flags, message =>
    (if sub.shownHolds message then sub.weight.toNat else 0) + shownWeight subs flags message
  | _ :: subs, false :: flags, message => shownWeight subs flags message
  | _, _, _ => 0

end

/-- The revealed parts of all thresholds that are reached, each with the message handed to it. -/
inductive Handed : Fulfillment → Bytes → Fulfillment → Bytes → Prop where
  | prefixed {w : Weight} {lead message part : Bytes} {sub g : Fulfillment} {c : Condition}
      (inner : Handed sub (lead ++ message) g part) : Handed (.prefixed w lead sub c) message g part
  | revealed {w : Weight} {needed : UInt32} {subs : List Fulfillment} {flags : List Bool}
      {c : Condition} {sub : Fulfillment} (message : Bytes) (mem : (sub, true) ∈ subs.zip flags) :
      Handed (.threshold w needed subs (.revealed flags) c) message sub message
  | deeper {w : Weight} {needed : UInt32} {subs : List Fulfillment} {flags : List Bool}
      {c : Condition} {sub g : Fulfillment} {message part : Bytes}
      (mem : (sub, true) ∈ subs.zip flags) (inner : Handed sub message g part) :
      Handed (.threshold w needed subs (.revealed flags) c) message g part

@[simp] theorem validate_withWeight (w : Weight) (f : Fulfillment) (message : Bytes) :
    (f.withWeight w).validate message = f.validate message := by
  cases f with
  | ed25519 _ _ signature => cases signature <;> simp only [withWeight, validate]
  | rsa _ _ _ signature => cases signature <;> simp only [withWeight, validate]
  | _ => simp only [withWeight, validate]

theorem validWeight_receivedParts {subs : List Fulfillment} {flags : List Bool} {message : Bytes}
    (same : ∀ sub, (sub, true) ∈ subs.zip flags →
      sub.received.canReveal = true ∧ sub.received.validate message = sub.shownHolds message) :
    validWeight (receivedParts subs flags) message = shownWeight subs flags message := by
  induction subs generalizing flags with
  | nil => simp [receivedParts, validWeight, shownWeight]
  | cons sub subs ih =>
    cases flags with
    | nil => simp [receivedParts, validWeight, shownWeight]
    | cons flag flags =>
      have rest := @ih flags fun other mem => same other (List.mem_cons_of_mem _ mem)
      cases flag with
      | false => simp [receivedParts, validWeight, shownWeight, canReveal, rest]
      | true =>
        obtain ⟨can, holds⟩ := same sub (List.mem_cons_self)
        simp [receivedParts, validWeight, shownWeight, can, holds, rest]

theorem Written.validate_received {f : Fulfillment} {shown : Bytes} (h : f.Written shown)
    (standard : f.StandardKeys) (message : Bytes) :
    f.received.validate message = f.shownHolds message := by
  induction h generalizing message with
  | prefixed made inner ih =>
    simp only [received, shownHolds, validate]
    exact ih (standardKeys_prefixed.1 standard) _
  | rsa w key long signature =>
    obtain ⟨modulus, exponent⟩ := key
    obtain rfl : exponent = Rsa.publicExponent := standardKeys_rsa.1 standard
    simp only [received, shownHolds, validate]
  | @threshold w needed subs flags c bytes parts assembled written inner ih =>
    have same sub (mem : (sub, true) ∈ subs.zip flags) : sub.received.canReveal = true ∧
        sub.received.validate message = sub.shownHolds message := by
      obtain ⟨shown, paid⟩ := payload_of_entries written mem
      have keys := standardKeys_threshold.1 standard sub (List.of_mem_zip mem).1
      rw [canReveal_received, (inner sub shown mem paid).canReveal]
      exact ⟨rfl, ih sub shown mem paid keys message⟩
    simp only [received, shownHolds, validate, validWeight_receivedParts same]
  | _ => simp only [received, shownHolds, validate]

theorem shownWeight_le_validWeight {subs : List Fulfillment} {flags : List Bool} {message : Bytes}
    (less : ∀ sub, (sub, true) ∈ subs.zip flags →
      sub.canReveal = true ∧ (sub.shownHolds message = true → sub.validate message = true)) :
    shownWeight subs flags message ≤ validWeight subs message := by
  induction subs generalizing flags with
  | nil => simp [shownWeight]
  | cons sub subs ih =>
    cases flags with
    | nil => simp [shownWeight]
    | cons flag flags =>
      have rest := @ih flags fun other mem => less other (List.mem_cons_of_mem _ mem)
      rw [validWeight]
      cases flag with
      | false =>
        rw [shownWeight]
        omega
      | true =>
        obtain ⟨can, holds⟩ := less sub List.mem_cons_self
        rw [shownWeight, can, Bool.true_and]
        cases found : sub.shownHolds message with
        | false =>
          simp only [Bool.false_eq_true, if_false]
          omega
        | true =>
          rw [if_pos rfl, if_pos (holds found)]
          omega

theorem Written.validate_of_shownHolds {f : Fulfillment} {shown : Bytes} (h : f.Written shown)
    {message : Bytes} (holds : f.shownHolds message = true) : f.validate message = true := by
  induction h generalizing message with
  | prefixed made inner ih =>
    rw [shownHolds] at holds
    rw [validate]
    exact ih holds
  | @threshold w needed subs flags c bytes parts assembled written inner ih =>
    have most : shownWeight subs flags message ≤ validWeight subs message := by
      refine shownWeight_le_validWeight fun sub mem => ?_
      obtain ⟨shown, paid⟩ := payload_of_entries written mem
      exact ⟨(inner sub shown mem paid).canReveal, ih sub shown mem paid⟩
    rw [shownHolds, decide_eq_true_eq] at holds
    rw [validate, decide_eq_true_eq]
    omega
  | preimage => rw [validate]
  | ed25519 | rsa | timeout => simpa only [shownHolds, validate] using holds

theorem shownWeight_of_all {subs : List Fulfillment} {flags : List Bool} {message : Bytes}
    (all : ∀ sub, (sub, true) ∈ subs.zip flags → sub.shownHolds message = true) :
    shownWeight subs flags message = revealedWeight (subs.zip flags) := by
  induction subs generalizing flags with
  | nil => simp [shownWeight, revealedWeight]
  | cons sub subs ih =>
    cases flags with
    | nil => simp [shownWeight, revealedWeight]
    | cons flag flags =>
      have rest := @ih flags fun other mem => all other (List.mem_cons_of_mem _ mem)
      rw [revealedWeight] at rest
      cases flag with
      | false => simpa [shownWeight, revealedWeight] using rest
      | true => simp [shownWeight, revealedWeight, all sub List.mem_cons_self, rest]

theorem Written.shownHolds_of_handed {f : Fulfillment} {shown : Bytes} (h : f.Written shown)
    {message : Bytes} (hold : ∀ g part, Handed f message g part → g.validate part = true)
    (holds : f.validate message = true) : f.shownHolds message = true := by
  induction h generalizing message with
  | prefixed made inner ih =>
    rw [validate] at holds
    rw [shownHolds]
    exact ih (fun g part handed => hold g part (.prefixed handed)) holds
  | @threshold w needed subs flags c bytes parts assembled written inner ih =>
    have enough := (assembled.revealing flags rfl).enough
    have all : shownWeight subs flags message = revealedWeight (subs.zip flags) := by
      refine shownWeight_of_all fun sub mem => ?_
      obtain ⟨shown, paid⟩ := payload_of_entries written mem
      exact ih sub shown mem paid (fun g part handed => hold g part (.deeper mem handed))
        (hold sub message (.revealed message mem))
    rw [shownHolds, decide_eq_true_eq, all]
    exact enough
  | preimage => rw [shownHolds]
  | ed25519 | rsa | timeout => simpa only [shownHolds, validate] using holds

/-- What comes out of the bytes or the URI of a fulfillment. -/
def Sent (f d : Fulfillment) : Prop :=
  (∃ bytes, f.binary = .ok bytes ∧ ofBinary bytes = .ok d) ∨
    ∃ uri, f.uri = .ok uri ∧ ofUri uri = .ok d

theorem WellFormed.received_of_sent {f d : Fulfillment} (h : f.WellFormed) (sent : f.Sent d) :
    ∃ shown, f.Written shown ∧ d = f.received := by
  rcases sent with ⟨bytes, written, read⟩ | ⟨text, written, read⟩
  · obtain ⟨shown, paid, rfl⟩ := binary_eq_ok.1 written
    have small := length_lt_of_readFrame (whole_eq_ok.1 read)
    rw [ofBinary_frame small] at read
    exact ⟨shown, h.written paid, (h.written paid).received_of_ok read⟩
  · simp only [uri, bind_eq_ok, pure_eq_ok] at written
    obtain ⟨shown, paid, rfl⟩ := written
    rw [ofUri_format] at read
    exact ⟨shown, h.written paid, (h.written paid).received_of_ok read⟩

theorem Written.sent_received {f : Fulfillment} {shown : Bytes} (h : f.Written shown)
    (small : shown.length < 2 ^ 64) (shallow : f.shownDepth ≤ maxNesting) :
    f.Sent f.received :=
  Or.inr (h.uri_received small shallow)

/-- At the other end there holds what the revealed part proves: no more than here, and as much if
all that is revealed holds. -/
theorem validate_of_sent {f d : Fulfillment} (built : f.Constructed) (standard : f.StandardKeys)
    (sent : f.Sent d) (message : Bytes) :
    d.validate message = f.shownHolds message ∧
      (d.validate message = true → f.validate message = true) ∧
      ((∀ g part, Handed f message g part → g.validate part = true) →
        f.validate message = true → d.validate message = true) := by
  obtain ⟨shown, written, rfl⟩ := built.wellFormed.received_of_sent sent
  rw [written.validate_received standard message]
  exact ⟨rfl, written.validate_of_shownHolds, written.shownHolds_of_handed⟩

theorem validate_of_sent_sample : ∃ f d : Fulfillment, f.Constructed ∧ f.StandardKeys ∧ f.Sent d ∧
    d.validate [] = true ∧
      d.validate [] = f.shownHolds [] ∧ (d.validate [] = true → f.validate [] = true) ∧
      ((∀ g part, Handed f [] g part → g.validate part = true) →
        f.validate [] = true → d.validate [] = true) := by
  obtain ⟨c, built⟩ := exists_constructed
  have standard :
      StandardKeys (.threshold Weight.one 2 sampleParts (.revealed [true, false]) c) := by
    simp [StandardKeys, rsaKeys, rsaKeysOf, sampleParts]
  obtain ⟨shown, paid⟩ := built.wellFormed.payload rfl
  have written := built.wellFormed.written paid
  have small : shown.length < 2 ^ 64 := by
    cases written with
    | threshold _ assembled entered =>
      have fits := assembled.entries_fit entered
      unfold Threshold.maxPayload at fits
      rw [List.length_append, Threshold.header_length]
      omega
  have sent := written.sent_received small (by
    simp [shownDepth, entriesDepth, sampleParts, maxNesting])
  have same := validate_of_sent built standard sent []
  have holds : shownHolds (.threshold Weight.one 2 sampleParts (.revealed [true, false]) c) [] =
      true := by
    simp [shownHolds, shownWeight, sampleParts, weight, Weight.toNat]
  exact ⟨_, _, built, standard, sent, same.1.trans holds, same⟩

end CryptoConditions.Fulfillment
