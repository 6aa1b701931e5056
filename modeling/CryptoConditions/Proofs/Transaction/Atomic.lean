import CryptoConditions.Proofs.Transaction.Agreement
import CryptoConditions.Proofs.Transaction.InPlace

/-! Operations on a transaction take effect as a whole or not at all, and what they change is
fulfillments only. Whatever operations come one after another, with whatever arguments, what is
signed and the id stay; so a signature holds at any time if it does at one, and whether an input
passes its check is up to the fulfillment that it carries then. -/

namespace CryptoConditions.Transaction

open InPlace

def linked (pair : Input × String) : Input :=
  ⟨pair.1.owners, pair.1.spends, some pair.2⟩

theorem attach_eq_ok {t t' : Transaction} {fs : List Fulfillment} :
    t.attach fs = .ok t' ↔ fs.length = t.inputs.length ∧
      ∃ uris, fs.mapM Fulfillment.uri = .ok uris ∧
        t' = t.withInputs ((t.inputs.zip uris).map linked) := by
  by_cases count : fs.length = t.inputs.length
  · rw [attach, if_neg (not_not.2 count)]
    cases fs.mapM Fulfillment.uri with
    | error e => simp [ofCondition, bind, Except.bind]
    | ok uris =>
      refine pure_eq_ok.trans ⟨?_, ?_⟩
      · rintro rfl
        exact ⟨count, uris, rfl, rfl⟩
      · rintro ⟨_, _, same, rfl⟩
        cases same
        rfl
  · rw [attach, if_pos count]
    constructor
    · intro ok
      cases ok
    · rintro ⟨same, _⟩
      exact absurd same count

theorem detach_eq_ok {t bare : Transaction} {found : List (Option Fulfillment)} :
    t.detach = .ok (found, bare) ↔ t.inputs.mapM parsed = .ok found ∧ bare = t.unsigned := by
  rw [detach]
  cases t.inputs.mapM parsed with
  | error e => simp [ofCondition, bind, Except.bind]
  | ok others => simp [ofCondition, bind, Except.bind, pure, Except.pure, eq_comm]

inductive Call where
  | fulfillSingle (pair : KeyPair) (salt : Octets 32)
  | fulfillMultiple (keys : List PublicKey) (signatures : List Bytes)
  | attach (fulfillments : List Fulfillment)
  | detach

namespace Call

/-- The operation in place, without the fulfillments that it takes off. -/
def program : Call → InPlace Unit
  | fulfillSingle pair salt => InPlace.fulfillSingle pair salt
  | fulfillMultiple keys signatures => InPlace.fulfillMultiple keys signatures
  | attach fulfillments => InPlace.attach fulfillments
  | detach => (fun _ => ()) <$> InPlace.detach

def answer (t : Transaction) : Call → Except TransactionError Transaction
  | fulfillSingle pair salt => t.fulfillSingle pair salt
  | fulfillMultiple keys signatures => t.fulfillMultiple keys signatures
  | attach fulfillments => t.attach fulfillments
  | detach => Prod.snd <$> t.detach

def Signs : Call → Prop
  | fulfillSingle .. | fulfillMultiple .. => True
  | attach .. | detach => False

variable {t t' : Transaction} {call : Call}

theorem on_program (t : Transaction) (call : Call) :
    on t call.program = settle t (((), ·) <$> call.answer t) := by
  cases call with
  | fulfillSingle pair salt => exact on_fulfillSingle t pair salt
  | fulfillMultiple keys signatures => exact on_fulfillMultiple t keys signatures
  | attach fulfillments => exact on_attach t fulfillments
  | detach =>
    have run := on_detach t
    rw [answer, program, map_eq_pure_bind]
    cases taken : t.detach with
    | error e =>
      rw [taken] at run
      exact on_bind_error _ run
    | ok pair =>
      rw [taken] at run
      exact on_bind _ run

/-- What a call can change: fulfillments, and of the first input only if it signs. -/
structure Allows (call : Call) (t t' : Transaction) : Prop where
  document : SameDocument t t'
  others : call.Signs → t'.inputs.tail = t.inputs.tail

theorem allows_attachFirst {uri : String} (ok : t.attachFirst uri = .ok t') :
    call.Allows t t' := by
  unfold attachFirst at ok
  split at ok
  · cases ok
  · next input rest inputs =>
    cases ok
    refine ⟨.of_inputs ?_, fun _ => ?_⟩
    · rw [inputs]
      exact .cons ⟨rfl, rfl⟩ (List.forall₂_same.2 fun _ _ => ⟨rfl, rfl⟩)
    · rw [inputs]
      rfl

theorem allows_of_answer (ok : call.answer t = .ok t') : call.Allows t t' := by
  cases call with
  | fulfillSingle pair salt =>
    simp only [answer, Transaction.fulfillSingle] at ok
    split at ok
    · cases ok
    · obtain ⟨f, _, ok⟩ := bind_eq_ok.1 ok
      obtain ⟨uri, _, ok⟩ := bind_eq_ok.1 ok
      exact allows_attachFirst ok
  | fulfillMultiple keys signatures =>
    simp only [answer, Transaction.fulfillMultiple] at ok
    split at ok
    · cases ok
    · split at ok
      · cases ok
      · obtain ⟨subs, _, ok⟩ := bind_eq_ok.1 ok
        obtain ⟨f, _, ok⟩ := bind_eq_ok.1 ok
        obtain ⟨uri, _, ok⟩ := bind_eq_ok.1 ok
        exact allows_attachFirst ok
  | attach fulfillments =>
    obtain ⟨count, uris, made, rfl⟩ := attach_eq_ok.1 ok
    have each := (mapM_eq_ok made).length_eq
    have inside : t.inputs.length ≤ uris.length := by omega
    refine ⟨.of_inputs (map_bare_eq.1 ?_), False.elim⟩
    rw [List.map_map]
    nth_rewrite 1 [← List.map_fst_zip inside]
    rw [List.map_map]
    rfl
  | detach =>
    obtain ⟨⟨found, left⟩, taken, rfl⟩ := map_eq_ok.1 ok
    obtain ⟨_, rfl⟩ := detach_eq_ok.1 taken
    refine ⟨sameDocument_iff.2 ?_, False.elim⟩
    simp [unsigned]

variable (t call) in
theorem on_cases :
    (∃ e, on t call.program = (.error e, t)) ∨
      ∃ t', on t call.program = (.ok (), t') ∧ call.Allows t t' := by
  rw [on_program]
  cases answered : call.answer t with
  | error e => exact .inl ⟨e, rfl⟩
  | ok t' => exact .inr ⟨t', rfl, allows_of_answer answered⟩

/-- The document after a call, however it ends. -/
def after (t : Transaction) (call : Call) : Transaction :=
  (on t call.program).2

theorem sameDocument_after (t : Transaction) (call : Call) : SameDocument t (after t call) := by
  rw [after]
  rcases on_cases t call with ⟨e, run⟩ | ⟨t', run, allowed⟩
  · rw [run]
    exact .refl t
  · rw [run]
    exact allowed.document

end Call

def afterAll (calls : List Call) (t : Transaction) : Transaction :=
  calls.foldl Call.after t

theorem sameDocument_afterAll (calls : List Call) (t : Transaction) :
    SameDocument t (t.afterAll calls) := by
  induction calls generalizing t with
  | nil => exact .refl t
  | cons call calls ih => exact (Call.sameDocument_after t call).trans (ih _)

/-- Calls are atomic and change fulfillments only. Whatever calls have been made, in whatever
order, what is signed and the id are those of the document before all of them, so that what a
signature is worth does not change; and whether an input passes its check is determined by that
document and the fulfillment that the input carries. -/
theorem atomic_of_calls (t : Transaction) :
    (∀ (call : Call) e t', on t call.program = (.error e, t') → t' = t) ∧
    (∀ (call : Call) t', on t call.program = (.ok (), t') →
      SameDocument t t' ∧ (call.Signs → t'.inputs.tail = t.inputs.tail)) ∧
    ∀ calls t', t.afterAll calls = t' →
      SameDocument t t' ∧ t'.signingBytes = t.signingBytes ∧ t'.calculateId = t.calculateId ∧
      t'.hasValidId = t.hasValidId ∧
      (∀ (key : PublicKey) signature,
        key.verify t'.signingBytes signature = key.verify t.signingBytes signature) ∧
      (∀ (f : Fulfillment), f.validate t'.signingBytes = f.validate t.signingBytes) ∧
      (∀ index, t'.checkAt index = t.checkWith index (t'.fulfillmentAt index)) ∧
      (t'.isFulfilled = .ok true ↔ t.inputs ≠ [] ∧ ∀ index < t.inputs.length,
        t.checkWith index (t'.fulfillmentAt index) = .ok ()) := by
  refine ⟨fun call e t' run => ?_, fun call t' run => ?_, fun calls t' run => ?_⟩
  · rcases call.on_cases t with ⟨e', failed⟩ | ⟨t'', done, _⟩
    · rw [failed] at run
      cases run
      rfl
    · rw [done] at run
      cases run
  · rcases call.on_cases t with ⟨e', failed⟩ | ⟨t'', done, allowed⟩
    · rw [failed] at run
      cases run
    · rw [done] at run
      cases run
      exact ⟨allowed.document, allowed.others⟩
  · subst run
    have same := sameDocument_afterAll calls t
    have check (index : Nat) : (t.afterAll calls).checkAt index =
        t.checkWith index ((t.afterAll calls).fulfillmentAt index) := by
      rw [checkAt_eq, same.checkWith]
    refine ⟨same, same.signingBytes, same.calculateId, same.hasValidId, ?_, ?_, check, ?_⟩
    · intro key signature
      rw [same.signingBytes]
    · intro f
      rw [same.signingBytes]
    · have length := same.inputs.length_eq
      rw [isFulfilled_iff, ← List.length_pos_iff, ← List.length_pos_iff, length]
      simp only [check]

/-- The neutral point as a key, which signs every message with the neutral point and zero. -/
def neutralParts : Uri.FulfillmentParts :=
  ⟨4, 1 :: List.replicate 31 0 ++ 1 :: List.replicate 63 0⟩

def neutralInput : Input :=
  ⟨["4uQeVj5tqViQh7yWWGStvkEG1Zmhx6uasJtWCJziofM"], none, some neutralParts.format⟩

def neutralTransaction : Transaction :=
  ⟨"", "", .create, .null, none, [neutralInput], [], ⟨0, 0⟩⟩

theorem neutral_fulfilled : neutralTransaction.isFulfilled = .ok true := by
  have read : Fulfillment.ofUri neutralParts.format =
      Fulfillment.ofRoot neutralParts.type neutralParts.payload := by
    rw [Fulfillment.ofUri, Uri.parseFulfillment_format (by decide)]
  have passed : checkInput neutralTransaction.signingBytes neutralInput = .ok () := by
    rw [signingBytes, signingText, Json.compact, utf8, String.toList_ofList, checkInput,
      neutralInput]
    simp only [read]
    decide +kernel
  rw [isFulfilled, if_neg (by decide), neutralTransaction, checkInputs]
  rw [neutralTransaction] at passed
  rw [passed]
  rfl

theorem atomic_of_calls_neutral :
    (∃ t', on neutralTransaction (Call.attach []).program = (.error (.countMismatch 1 0), t') ∧
      t' = neutralTransaction) ∧
    (∃ t', on neutralTransaction Call.detach.program = (.ok (), t') ∧
      SameDocument neutralTransaction t' ∧ t'.inputs ≠ neutralTransaction.inputs) ∧
    (neutralTransaction.afterAll [.attach [], .detach]).signingBytes =
      neutralTransaction.signingBytes := by
  obtain ⟨failed, done, all⟩ := atomic_of_calls neutralTransaction
  obtain ⟨_, passed⟩ := isFulfilled_iff.1 neutral_fulfilled
  have first : checkInput neutralTransaction.signingBytes neutralInput = .ok () :=
    passed 0 (by decide)
  obtain ⟨_, f, _, _, attached, parses, _⟩ := checkInput_eq_ok first
  cases attached
  have read : neutralTransaction.detach = .ok ([some f], neutralTransaction.unsigned) := by
    have carried : parsed neutralInput = .ok (some f) := by
      rw [parsed, neutralInput]
      simp only [parses]
      rfl
    have found : neutralTransaction.inputs.mapM parsed = .ok [some f] := by
      rw [neutralTransaction, List.mapM_cons, carried]
      rfl
    rw [detach, found]
    rfl
  have taken : on neutralTransaction Call.detach.program =
      (.ok (), neutralTransaction.unsigned) := by
    rw [Call.on_program, Call.answer, read]
    rfl
  have stopped : on neutralTransaction (Call.attach []).program =
      (.error (.countMismatch 1 0), neutralTransaction) := rfl
  refine ⟨⟨_, stopped, failed _ _ _ stopped⟩, ⟨_, taken, (done _ _ taken).1, ?_⟩,
    (all _ _ rfl).2.1⟩
  simp [neutralTransaction, neutralInput, unsigned]

end CryptoConditions.Transaction
