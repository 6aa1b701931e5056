import CryptoConditions.Proofs.Steps
import CryptoConditions.Transaction.Signing

/-! The operations on a transaction as programs on one document. Each makes its checks and writes
fulfillments input by input, and what it has written is there also where it ends in an error. A
run of the program comes to what the operation answers: no write is followed by a check. -/

namespace CryptoConditions.Transaction

/-- A program on the document at hand, which keeps what is written before an error. -/
abbrev InPlace : Type → Type := ExceptT TransactionError (StateM Transaction)

namespace InPlace

variable {α β : Type}

def on (t : Transaction) (program : InPlace α) : Except TransactionError α × Transaction :=
  (ExceptT.run program).run t

def check (result : Except ConditionError α) : InPlace α :=
  ExceptT.mk (pure (ofCondition result))

def write (index : Nat) (fulfillment : Option String) : InPlace Unit :=
  modify fun t => t.withInputs (t.inputs.modify index fun i => ⟨i.owners, i.spends, fulfillment⟩)

def writeFrom (index : Nat) : List (Option String) → InPlace Unit
  | [] => pure ()
  | fulfillment :: rest => do
    write index fulfillment
    writeFrom (index + 1) rest

def fulfillSingle (pair : KeyPair) (salt : Octets 32) : InPlace Unit := do
  if (← get).inputs.isEmpty then throw .noInputs
  let message := (← get).signingBytes
  let f ← check (Fulfillment.sign pair salt message)
  write 0 (some (← check f.uri))

def fulfillMultiple (keys : List PublicKey) (signatures : List Bytes) : InPlace Unit := do
  if keys.length ≠ signatures.length then
    throw (.countMismatch keys.length signatures.length)
  if (← get).inputs.isEmpty then throw .noInputs
  let message := (← get).signingBytes
  let subs ← (keys.zip signatures).mapM fun part => check (jointPart message part.1 part.2)
  let f ← check (Fulfillment.ofThreshold (UInt32.ofNat subs.length) subs)
  write 0 (some (← check f.uri))

def attach (fulfillments : List Fulfillment) : InPlace Unit := do
  if fulfillments.length ≠ (← get).inputs.length then
    throw (.countMismatch (← get).inputs.length fulfillments.length)
  let uris ← fulfillments.mapM fun f => check f.uri
  writeFrom 0 (uris.map some)

def detach : InPlace (List (Option Fulfillment)) := do
  let found ← (← get).inputs.mapM fun input => check (parsed input)
  writeFrom 0 ((← get).inputs.map fun _ => none)
  return found

def settle (t : Transaction) :
    Except TransactionError (α × Transaction) → Except TransactionError α × Transaction
  | .ok (a, t') => (.ok a, t')
  | .error e => (.error e, t)

section Runs

variable {t t' : Transaction}

theorem on_get : on t get = (.ok t, t) := rfl

theorem on_check (result : Except ConditionError α) :
    on t (check result) = (ofCondition result, t) := rfl

theorem on_bind {program : InPlace α} {a : α} (next : α → InPlace β)
    (ok : on t program = (.ok a, t')) : on t (program >>= next) = on t' (next a) :=
  program_bind ok next

theorem on_bind_error {program : InPlace α} {e : TransactionError} (next : α → InPlace β)
    (error : on t program = (.error e, t')) : on t (program >>= next) = (.error e, t') :=
  program_bind_error error next

theorem on_get_bind (next : Transaction → InPlace β) :
    on t (get >>= next) = on t (next t) := on_bind next on_get

theorem on_check_bind {result : Except ConditionError α} {next : α → InPlace β}
    {answer : α → Except TransactionError (β × Transaction)}
    (after : ∀ a, result = .ok a → on t (next a) = settle t (answer a)) :
    on t (check result >>= next) = settle t (ofCondition result >>= answer) := by
  cases result with
  | error e => rfl
  | ok a => exact (on_bind next (on_check _)).trans (after a rfl)

theorem on_mapM_check (f : α → Except ConditionError β) (list : List α) :
    on t (list.mapM fun a => check (f a)) = on t (check (list.mapM f)) := by
  have fault {γ : Type} (x : Except ConditionError γ) :
      ofCondition x = x.mapError TransactionError.condition := by cases x <;> rfl
  rw [on_check, fault]
  exact program_mapM _ (fun a => congrArg (·, t) (fault (f a))) list

theorem on_mapM_check_bind {γ : Type} (f : α → Except ConditionError β) (list : List α)
    (next : List β → InPlace γ) :
    on t ((list.mapM fun a => check (f a)) >>= next) = on t (check (list.mapM f) >>= next) := by
  have same := on_mapM_check (t := t) f list
  simp only [on, ExceptT.run_bind, StateT.run_bind] at same ⊢
  rw [same]

def put (input : Input) (fulfillment : Option String) : Input :=
  ⟨input.owners, input.spends, fulfillment⟩

theorem on_write {done rest : List Input} {input : Input}
    (at_inputs : t.inputs = done ++ input :: rest) (fulfillment : Option String) :
    on t (write done.length fulfillment) =
      (.ok (), t.withInputs (done ++ put input fulfillment :: rest)) := by
  have modified : t.inputs.modify done.length (put · fulfillment) =
      done ++ put input fulfillment :: rest := by
    rw [at_inputs]
    clear at_inputs
    induction done with
    | nil => rfl
    | cons first done ih => rw [List.length_cons, List.cons_append, List.modify_succ_cons, ih]; rfl
  exact congrArg (fun inputs => (Except.ok (), t.withInputs inputs)) modified

theorem on_writeFrom {fulfillments : List (Option String)} {done rest : List Input}
    (at_inputs : t.inputs = done ++ rest) (each : fulfillments.length = rest.length) :
    on t (writeFrom done.length fulfillments) =
      (.ok (), t.withInputs (done ++ List.zipWith put rest fulfillments)) := by
  induction fulfillments generalizing t done rest with
  | nil =>
    rw [List.length_nil, eq_comm, List.length_eq_zero_iff] at each
    rw [each] at at_inputs ⊢
    rw [List.zipWith_nil_right, ← at_inputs]
    rfl
  | cons fulfillment fulfillments ih =>
    cases rest with
    | nil => cases each
    | cons input rest =>
      rw [List.length_cons, List.length_cons, Nat.add_right_cancel_iff] at each
      rw [writeFrom, on_bind _ (on_write at_inputs fulfillment)]
      have written : (t.withInputs (done ++ put input fulfillment :: rest)).inputs =
          (done ++ [put input fulfillment]) ++ rest := by simp [withInputs]
      have next := ih written each
      rw [List.length_append, List.length_singleton] at next
      rw [next]
      simp [withInputs]

theorem on_writeAll {fulfillments : List (Option String)}
    (each : fulfillments.length = t.inputs.length) : on t (writeFrom 0 fulfillments) =
      (.ok (), t.withInputs (List.zipWith put t.inputs fulfillments)) := by
  have start : t.inputs = [] ++ t.inputs := rfl
  exact on_writeFrom start each

end Runs

section Operations

variable (t : Transaction)

theorem on_attachFirst {f : Fulfillment} (filled : t.inputs.isEmpty = false) :
    on t (check f.uri >>= fun uri => write 0 (some uri)) =
      settle t (((), ·) <$> (ofCondition f.uri >>= fun uri => t.attachFirst uri)) := by
  rw [map_bind]
  refine on_check_bind fun uri _ => ?_
  cases inputs : t.inputs with
  | nil => rw [inputs] at filled; cases filled
  | cons input rest =>
    have start : t.inputs = [] ++ input :: rest := inputs
    rw [attachFirst, inputs]
    exact on_write start _

theorem on_fulfillSingle (pair : KeyPair) (salt : Octets 32) :
    on t (fulfillSingle pair salt) =
      settle t (((), ·) <$> t.fulfillSingle pair salt) := by
  rw [fulfillSingle, on_get_bind, Transaction.fulfillSingle]
  cases empty : t.inputs.isEmpty with
  | true => rfl
  | false =>
    simp only [Bool.false_eq_true, if_false]
    rw [on_get_bind, map_bind]
    refine on_check_bind fun f _ => ?_
    exact on_attachFirst t empty

theorem on_fulfillMultiple (keys : List PublicKey) (signatures : List Bytes) :
    on t (fulfillMultiple keys signatures) =
      settle t (((), ·) <$> t.fulfillMultiple keys signatures) := by
  rw [fulfillMultiple, Transaction.fulfillMultiple]
  by_cases count : keys.length = signatures.length
  · rw [if_neg (not_not.2 count), if_neg (not_not.2 count), on_get_bind]
    cases empty : t.inputs.isEmpty with
    | true => rfl
    | false =>
      simp only [Bool.false_eq_true, if_false]
      rw [on_get_bind, map_bind]
      rw [on_mapM_check_bind]
      refine on_check_bind fun subs _ => ?_
      rw [map_bind]
      refine on_check_bind fun f _ => ?_
      exact on_attachFirst t empty
  · rw [if_pos count, if_pos count]
    rfl

theorem on_attach (fulfillments : List Fulfillment) :
    on t (attach fulfillments) = settle t (((), ·) <$> t.attach fulfillments) := by
  rw [attach, on_get_bind, Transaction.attach]
  by_cases count : fulfillments.length = t.inputs.length
  · rw [if_neg (not_not.2 count), if_neg (not_not.2 count), map_bind, on_mapM_check_bind]
    refine on_check_bind fun uris made => ?_
    have each : (uris.map some).length = t.inputs.length := by
      rw [List.length_map, ← (mapM_eq_ok made).length_eq, count]
    rw [on_writeAll each, List.zipWith_map_right, List.zip, List.map_zipWith]
    rfl
  · rw [if_pos count, if_pos count]
    rfl

theorem on_detach : on t detach = settle t t.detach := by
  rw [detach, on_get_bind, Transaction.detach, on_mapM_check_bind]
  refine on_check_bind fun found _ => ?_
  rw [on_get_bind]
  rw [on_bind _ (on_writeAll (List.length_map _)), List.zipWith_map_right, List.zipWith_self]
  rfl

end Operations

end InPlace
end CryptoConditions.Transaction
