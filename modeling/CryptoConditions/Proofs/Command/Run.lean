import CryptoConditions.Command.Basic
import CryptoConditions.Proofs.Steps

/-! Runs of commands. A command that creates a transaction or signs one writes a single file; what
it does besides is to read and to print. -/

namespace CryptoConditions

def Session.print (line : String) (s : Session) : Session :=
  ⟨s.store, s.files, s.printed ++ line ++ "\n"⟩

namespace Command

variable {α β ε : Type} {s s' : Session}

/-- What a command answers in a session, and the session that it leaves. -/
def on (s : Session) (command : Command α) : Except CommandError α × Session :=
  (ExceptT.run command).run s

section Steps

theorem on_bind {command : Command α} {a : α} (next : α → Command β)
    (ok : on s command = (.ok a, s')) : on s (command >>= next) = on s' (next a) :=
  program_bind ok next

theorem on_bind_eq_ok {command : Command α} {next : α → Command β} {b : β} :
    on s (command >>= next) = (.ok b, s') ↔
      ∃ a m, on s command = (.ok a, m) ∧ on m (next a) = (.ok b, s') :=
  program_bind_eq_ok

theorem on_get_bind (next : Session → Command β) : on s (get >>= next) = on s (next s) := rfl

theorem on_printLine (line : String) : on s (printLine line) = (.ok (), s.print line) := rfl

theorem on_ofExcept {fault : ε → CommandError} {x : Except ε α} :
    on s (ofExcept fault x) = (x.mapError fault, s) := by
  cases x <;> rfl

theorem on_ofExcept_eq_ok {fault : ε → CommandError} {x : Except ε α} {a : α} :
    on s (ofExcept fault x) = (.ok a, s') ↔ x = .ok a ∧ s' = s := by
  cases x with
  | error e => exact ⟨nofun, nofun⟩
  | ok b =>
    constructor
    · intro run
      cases run
      exact ⟨rfl, rfl⟩
    · rintro ⟨⟨⟩, rfl⟩
      rfl

theorem on_ofOption_eq_ok {fault : CommandError} {x : Option α} {a : α} :
    on s (ofOption fault x) = (.ok a, s') ↔ x = some a ∧ s' = s := by
  cases x with
  | none => exact ⟨nofun, nofun⟩
  | some b =>
    constructor
    · intro run
      cases run
      exact ⟨rfl, rfl⟩
    · rintro ⟨⟨⟩, rfl⟩
      rfl

theorem on_ofExcept_bind_eq_ok {fault : ε → CommandError} {x : Except ε α} {next : α → Command β}
    {b : β} : on s (ofExcept fault x >>= next) = (.ok b, s') ↔
      ∃ a, x = .ok a ∧ on s (next a) = (.ok b, s') := by
  simp [on_bind_eq_ok, on_ofExcept_eq_ok, and_assoc]

theorem on_ofOption_bind_eq_ok {fault : CommandError} {x : Option α} {next : α → Command β}
    {b : β} : on s (ofOption fault x >>= next) = (.ok b, s') ↔
      ∃ a, x = some a ∧ on s (next a) = (.ok b, s') := by
  simp [on_bind_eq_ok, on_ofOption_eq_ok, and_assoc]

theorem on_findKey_eq_ok {name : String} {key : StoredKey} :
    on s (findKey name) = (.ok key, s') ↔ s.store.find name s.files = .ok key ∧ s' = s :=
  on_ofExcept_eq_ok

theorem on_mapM_resolve_eq_ok {names : List String} {keys : List PublicKey} :
    on s (names.mapM resolve) = (.ok keys, s') ↔
      names.mapM (fun name => s.store.resolve name s.files) = .ok keys ∧ s' = s := by
  have each (name : String) : on s (resolve name) =
      ((s.store.resolve name s.files).mapError .key, s) := on_ofExcept
  rw [← on_ofExcept_eq_ok, on_ofExcept, on, program_mapM .key each]

theorem on_readTransaction_eq_ok {file : String} {t : Transaction} :
    on s (readTransaction file) = (.ok t, s') ↔
      ∃ text, s.files.readNamed? [] file = some text ∧ Transaction.ofText text = .ok t ∧
        s' = s := by
  rw [readTransaction, on_get_bind, on_ofOption_bind_eq_ok]
  simp only [on_ofExcept_eq_ok]

theorem on_writeTransaction_eq_ok {file : String} {t : Transaction} :
    on s (writeTransaction t file) = (.ok (), s') ↔
      ∃ files, s.files.writeNamed? [] file t.text = some files ∧ s' = s.withFiles files := by
  rw [writeTransaction, on_get_bind, on_ofOption_bind_eq_ok]
  refine exists_congr fun files => and_congr_right fun _ => ⟨fun run => ?_, fun same => ?_⟩
  · cases run
    rfl
  · rw [same]
    rfl

end Steps

section Commands

variable {owners : List String} {amount : UInt64} {asset : String} {metadata : Option String}
  {file name : String} {now : Instant} {files : Files} {t t' : Transaction}

structure Creates (s : Session) (owners : List String) (amount : UInt64) (asset : String)
    (metadata : Option String) (now : Instant) (keys : List PublicKey) (value : Json)
    (values : Option Json) (t : Transaction) : Prop where
  known : owners.mapM (fun name => s.store.resolve name s.files) = .ok keys
  parsed : Json.parse? asset = some value
  parsedAll : metadata.mapM Json.parse? = some values
  made : Transaction.create keys amount value values now = .ok t

theorem on_create {keys : List PublicKey} {value : Json} {values : Option Json}
    (creates : Creates s owners amount asset metadata now keys value values t)
    (written : s.files.writeNamed? [] file t.text = some files) :
    ∃ s', on s (create owners amount asset metadata file now) = (.ok (), s') ∧
      s'.store = s.store ∧ s'.files = files := by
  obtain ⟨known, parsed, parsedAll, made⟩ := creates
  rw [create, on_bind _ (on_mapM_resolve_eq_ok.2 ⟨known, rfl⟩),
    on_bind _ (on_ofOption_eq_ok.2 ⟨parsed, rfl⟩),
    on_bind _ (on_ofOption_eq_ok.2 ⟨parsedAll, rfl⟩),
    on_bind _ (on_ofExcept_eq_ok.2 ⟨made, rfl⟩),
    on_bind _ (on_writeTransaction_eq_ok.2 ⟨files, written, rfl⟩)]
  exact ⟨_, rfl, rfl, rfl⟩

theorem create_eq_ok (ok : on s (create owners amount asset metadata file now) = (.ok (), s')) :
    ∃ keys value values t, Creates s owners amount asset metadata now keys value values t ∧
      s.files.writeNamed? [] file t.text = some s'.files ∧ s'.store = s.store := by
  rw [create, on_bind_eq_ok] at ok
  obtain ⟨keys, m, resolved, ok⟩ := ok
  obtain ⟨known, rfl⟩ := on_mapM_resolve_eq_ok.1 resolved
  rw [on_ofOption_bind_eq_ok] at ok
  obtain ⟨value, parsed, ok⟩ := ok
  rw [on_ofOption_bind_eq_ok] at ok
  obtain ⟨values, parsedAll, ok⟩ := ok
  rw [on_ofExcept_bind_eq_ok] at ok
  obtain ⟨t, made, ok⟩ := ok
  rw [on_bind_eq_ok] at ok
  obtain ⟨_, _, wrote, ok⟩ := ok
  obtain ⟨files, written, rfl⟩ := on_writeTransaction_eq_ok.1 wrote
  -- All that is left are lines to print.
  cases ok
  exact ⟨keys, value, values, t, ⟨known, parsed, parsedAll, made⟩, written, rfl⟩

theorem on_sign {key : StoredKey} {text : String} {done : Bool} {salt : Octets 32}
    (there : s.files.readNamed? [] file = some text) (meant : Transaction.ofText text = .ok t)
    (found : s.store.find name s.files = .ok key)
    (signed : t.fulfillSingle key.pair salt = .ok t') (checked : t'.isFulfilled = .ok done)
    (written : s.files.writeNamed? [] file t'.text = some files) :
    ∃ s', on s (sign file name salt) = (.ok (), s') ∧ s'.store = s.store ∧ s'.files = files := by
  rw [sign, on_bind _ (on_readTransaction_eq_ok.2 ⟨text, there, meant, rfl⟩),
    on_bind _ (on_findKey_eq_ok.2 ⟨found, rfl⟩), on_bind _ (on_ofExcept_eq_ok.2 ⟨signed, rfl⟩),
    on_bind _ (on_writeTransaction_eq_ok.2 ⟨files, written, rfl⟩)]
  simp only [isFulfilled, checked]
  cases done <;> exact ⟨_, rfl, rfl, rfl⟩

theorem on_verify (read : on s (readTransaction file) = (.ok t, s)) (valid : t.hasValidId = true)
    (fulfilled : t.isFulfilled = .ok true) : on s (verify file) =
      (.ok (), (s.print s!"🔍 Verifying transaction {t.id}...").print
        "   ✅ Transaction is fulfilled") := by
  have checked (s : Session) : on s (isFulfilled t) = (.ok true, s) :=
    on_ofExcept_eq_ok.2 ⟨fulfilled, rfl⟩
  rw [verify, on_bind _ read, on_bind _ (on_printLine _)]
  simp only [valid, Bool.not_true, Bool.false_eq_true, if_false]
  rw [on_bind _ (checked _), if_pos rfl, on_printLine]

end Commands

end Command

end CryptoConditions
