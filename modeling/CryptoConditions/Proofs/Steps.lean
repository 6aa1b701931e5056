import Mathlib.Data.List.Forall2

/-! Sequences of steps that may fail: one succeeds as far as all its steps do. -/

namespace CryptoConditions

variable {ε σ α β : Type}

theorem bind_eq_ok {x : Except ε α} {next : α → Except ε β} {b : β} :
    (x >>= next) = .ok b ↔ ∃ a, x = .ok a ∧ next a = .ok b := by
  cases x with
  | error e => simp [bind, Except.bind]
  | ok a => simp [bind, Except.bind]

theorem bind_of_ok {x : Except ε α} {a : α} (ok : x = .ok a) (next : α → Except ε β) :
    (x >>= next) = next a := by
  rw [ok]
  rfl

theorem bind_of_error {x : Except ε α} {e : ε} (error : x = .error e) (next : α → Except ε β) :
    (x >>= next) = .error e := by
  rw [error]
  rfl

theorem throw_bind (e : ε) (next : α → Except ε β) :
    ((throw e : Except ε α) >>= next) = .error e := rfl

theorem bind_eq_error {x : Except ε α} {next : α → Except ε β} {e : ε} :
    (x >>= next) = .error e ↔ x = .error e ∨ ∃ a, x = .ok a ∧ next a = .error e := by
  cases x with
  | error e => simp [bind, Except.bind]
  | ok a => simp [bind, Except.bind]

theorem pure_eq_ok {a b : α} : (pure a : Except ε α) = .ok b ↔ b = a := by
  simp [pure, Except.pure, eq_comm]

theorem map_eq_ok {f : α → β} {x : Except ε α} {b : β} :
    f <$> x = .ok b ↔ ∃ a, x = .ok a ∧ b = f a := by
  cases x with
  | error e => simp [Functor.map, Except.map]
  | ok a => simp [Functor.map, Except.map, eq_comm]

theorem eq_of_read {read : α → Option β} {x y : α} {a b : β} (first : read x = some a)
    (second : read y = some b) (same : x = y) : a = b := by
  rw [same, second] at first
  exact (Option.some.inj first).symm

theorem foldlM_invariant {step : β → α → Except ε β} {P : β → Prop}
    (kept : ∀ {b a next}, step b a = .ok next → P b → P next) {list : List α} {b final : β}
    (ok : list.foldlM step b = .ok final) (start : P b) : P final := by
  induction list generalizing b with
  | nil =>
    cases ok
    exact start
  | cons a list ih =>
    rw [List.foldlM_cons] at ok
    obtain ⟨next, stepped, ok⟩ := bind_eq_ok.1 ok
    exact ih ok (kept stepped start)

theorem mapM_eq_ok {f : α → Except ε β} {list : List α} {results : List β}
    (ok : list.mapM f = .ok results) : List.Forall₂ (fun a b => f a = .ok b) list results := by
  induction list generalizing results with
  | nil =>
    cases ok
    exact .nil
  | cons a list ih =>
    simp only [List.mapM_cons, bind_eq_ok, pure_eq_ok] at ok
    obtain ⟨b, first, rest, others, rfl⟩ := ok
    exact .cons first (ih others)

theorem mapM_of_each {f : α → Except ε β} {R : α → β → Prop} {list : List α}
    (each : ∀ a ∈ list, ∃ b, f a = .ok b ∧ R a b) :
    ∃ results, list.mapM f = .ok results ∧ List.Forall₂ R list results := by
  induction list with
  | nil => exact ⟨[], rfl, .nil⟩
  | cons a list ih =>
    rw [List.forall_mem_cons] at each
    obtain ⟨b, first, related⟩ := each.1
    obtain ⟨results, made, paired⟩ := ih each.2
    refine ⟨b :: results, ?_, .cons related paired⟩
    rw [List.mapM_cons, bind_of_ok first, bind_of_ok made]
    rfl

theorem mapM_perm {f : α → Except ε β} {list order : List α} (perm : list.Perm order)
    {results : List β} (made : list.mapM f = .ok results) :
    ∃ others, order.mapM f = .ok others ∧ others.Perm results := by
  induction perm generalizing results with
  | nil => exact ⟨results, made, .refl _⟩
  | cons a _ ih =>
    simp only [List.mapM_cons, bind_eq_ok, pure_eq_ok] at made
    obtain ⟨b, first, rest, made, rfl⟩ := made
    obtain ⟨others, made', perm⟩ := ih made
    exact ⟨b :: others, by rw [List.mapM_cons, bind_of_ok first, bind_of_ok made']; rfl,
      perm.cons b⟩
  | swap a a' list =>
    simp only [List.mapM_cons, bind_eq_ok, pure_eq_ok] at made
    obtain ⟨b, first, _, ⟨b', second, rest, made, rfl⟩, rfl⟩ := made
    refine ⟨b' :: b :: rest, ?_, .swap b b' rest⟩
    rw [List.mapM_cons, bind_of_ok second, List.mapM_cons, bind_of_ok first, bind_of_ok made]
    rfl
  | trans _ _ ih ih' =>
    obtain ⟨middle, made', perm⟩ := ih made
    obtain ⟨others, made'', perm'⟩ := ih' made'
    exact ⟨others, made'', perm'.trans perm⟩

theorem mapM_zip_of_each {γ : Type} {f : α × β → Except ε γ} {S : α → β → Prop} {R : α → γ → Prop}
    {as : List α} {bs : List β} (each : ∀ a ∈ as, ∀ b, S a b → ∃ c, f (a, b) = .ok c ∧ R a c)
    (paired : List.Forall₂ S as bs) :
    ∃ results, (as.zip bs).mapM f = .ok results ∧ List.Forall₂ R as results := by
  induction paired with
  | nil => exact ⟨[], rfl, .nil⟩
  | cons related _ ih =>
    rw [List.forall_mem_cons] at each
    obtain ⟨c, first, kept⟩ := each.1 _ related
    obtain ⟨results, made, rest⟩ := ih each.2
    refine ⟨c :: results, ?_, .cons kept rest⟩
    rw [List.zip_cons_cons, List.mapM_cons, bind_of_ok first, bind_of_ok made]
    rfl

section Pairs

variable {R : α → β → Prop} {as : List α} {bs : List β}

theorem exists_of_mem_right (paired : List.Forall₂ R as bs) {b : β} (mem : b ∈ bs) :
    ∃ a ∈ as, R a b := by
  induction paired with
  | nil => cases mem
  | cons first _ ih =>
    rcases List.mem_cons.1 mem with rfl | mem
    · exact ⟨_, List.mem_cons_self, first⟩
    · obtain ⟨a, inside, related⟩ := ih mem
      exact ⟨a, List.mem_cons_of_mem _ inside, related⟩

theorem exists_of_mem_left (paired : List.Forall₂ R as bs) {a : α} (mem : a ∈ as) :
    ∃ b ∈ bs, R a b :=
  exists_of_mem_right paired.flip mem

theorem map_eq_map_of_zip {f : α → β} {as bs : List α} (length : as.length = bs.length)
    (each : ∀ pair ∈ as.zip bs, f pair.1 = f pair.2) : as.map f = bs.map f := by
  induction as generalizing bs with
  | nil => rw [List.eq_nil_of_length_eq_zero length.symm]
  | cons a as ih =>
    obtain ⟨b, rest, rfl⟩ := List.exists_cons_of_length_eq_add_one length.symm
    rw [List.zip_cons_cons, List.forall_mem_cons] at each
    rw [List.map_cons, List.map_cons, each.1, ih (Nat.succ.inj length) each.2]

end Pairs

theorem step_bind {step : StateT σ (Except ε) α} {s t : σ} {a : α} (ok : step s = .ok (a, t))
    (next : α → StateT σ (Except ε) β) : (step >>= next) s = next a t := by
  simp only [bind, StateT.bind, ok, Except.bind]

theorem step_bind_error {step : StateT σ (Except ε) α} {s : σ} {e : ε} (error : step s = .error e)
    (next : α → StateT σ (Except ε) β) : (step >>= next) s = .error e := by
  simp only [bind, StateT.bind, error, Except.bind]

theorem step_bind_eq_ok {step : StateT σ (Except ε) α} {next : α → StateT σ (Except ε) β} {s : σ}
    {result : β × σ} :
    (step >>= next) s = .ok result ↔ ∃ a t, step s = .ok (a, t) ∧ next a t = .ok result := by
  cases h : step s with
  | error e => simp [step_bind_error h]
  | ok pair =>
    obtain ⟨a, t⟩ := pair
    rw [step_bind h]
    constructor
    · intro ok
      exact ⟨a, t, rfl, ok⟩
    · rintro ⟨_, _, same, ok⟩
      cases same
      exact ok

theorem step_bind_eq_error {step : StateT σ (Except ε) α} {next : α → StateT σ (Except ε) β} {s : σ}
    {e : ε} : (step >>= next) s = .error e ↔
      step s = .error e ∨ ∃ a t, step s = .ok (a, t) ∧ next a t = .error e := by
  cases h : step s with
  | error e => simp [step_bind_error h]
  | ok pair =>
    obtain ⟨a, t⟩ := pair
    rw [step_bind h]
    simp

theorem step_pure_eq_ok {a : α} {s : σ} {result : α × σ} :
    (pure a : StateT σ (Except ε) α) s = .ok result ↔ result = (a, s) := by
  change (Except.ok (a, s) : Except ε (α × σ)) = .ok result ↔ result = (a, s)
  rw [Except.ok.injEq, eq_comm]

theorem step_lift_eq_ok {x : Except ε α} {s : σ} {a : α} {t : σ} :
    (liftM x : StateT σ (Except ε) α) s = .ok (a, t) ↔ x = .ok a ∧ t = s := by
  cases x with
  | error e => simp [liftM, monadLift, MonadLift.monadLift, StateT.lift, bind, Except.bind]
  | ok b =>
    simp [liftM, monadLift, MonadLift.monadLift, StateT.lift, bind, Except.bind, pure, Except.pure,
      eq_comm]

theorem step_lift_eq_error {x : Except ε α} {s : σ} {e : ε} :
    (liftM x : StateT σ (Except ε) α) s = .error e ↔ x = .error e := by
  cases x with
  | error e => simp [liftM, monadLift, MonadLift.monadLift, StateT.lift, bind, Except.bind]
  | ok b =>
    simp [liftM, monadLift, MonadLift.monadLift, StateT.lift, bind, Except.bind, pure, Except.pure]

theorem run_bind {step : StateT σ Option α} {s t : σ} {a : α} (taken : step s = some (a, t))
    (next : α → StateT σ Option β) : (step >>= next) s = next a t := by
  simp [bind, StateT.bind, taken]

theorem run_bind_eq_some {step : StateT σ Option α} {next : α → StateT σ Option β} {s : σ}
    {result : β × σ} :
    (step >>= next) s = some result ↔ ∃ a t, step s = some (a, t) ∧ next a t = some result := by
  simp [bind, StateT.bind, Option.bind_eq_some_iff]

theorem run_guard {p : Prop} [Decidable p] {s : σ} (holds : p) :
    (guard p : StateT σ Option Unit) s = some ((), s) := by
  rw [guard, if_pos holds]
  rfl

theorem run_guard_bind_eq_some {p : Prop} [Decidable p] {next : Unit → StateT σ Option β} {s : σ}
    {result : β × σ} :
    ((guard p : StateT σ Option Unit) >>= next) s = some result ↔
      p ∧ next () s = some result := by
  by_cases holds : p
  · rw [run_bind (run_guard holds)]
    simp [holds]
  · have stopped : (guard p : StateT σ Option Unit) s = none := by
      rw [guard, if_neg holds]
      rfl
    rw [run_bind_eq_some, stopped]
    constructor
    · rintro ⟨_, _, passed, _⟩
      cases passed
    · rintro ⟨met, _⟩
      exact absurd met holds

theorem run_pure_eq_some {a : α} {s : σ} {result : α × σ} :
    (pure a : StateT σ Option α) s = some result ↔ result = (a, s) := by
  change some (a, s) = some result ↔ _
  rw [Option.some.injEq, eq_comm]

section Programs

variable {program : ExceptT ε (StateM σ) α} {next : α → ExceptT ε (StateM σ) β} {s t : σ}

theorem program_bind {a : α} (ok : (ExceptT.run program).run s = (.ok a, t))
    (next : α → ExceptT ε (StateM σ) β) :
    (ExceptT.run (program >>= next)).run s = (ExceptT.run (next a)).run t := by
  simp only [ExceptT.run_bind, StateT.run_bind] at ok ⊢
  rw [ok]
  rfl

theorem program_bind_error {e : ε} (error : (ExceptT.run program).run s = (.error e, t))
    (next : α → ExceptT ε (StateM σ) β) :
    (ExceptT.run (program >>= next)).run s = (.error e, t) := by
  simp only [ExceptT.run_bind, StateT.run_bind] at error ⊢
  rw [error]
  rfl

theorem program_bind_eq_ok {b : β} : (ExceptT.run (program >>= next)).run s = (.ok b, t) ↔
    ∃ a m, (ExceptT.run program).run s = (.ok a, m) ∧
      (ExceptT.run (next a)).run m = (.ok b, t) := by
  rcases run : (ExceptT.run program).run s with ⟨answer | a, m⟩
  · rw [program_bind_error run]
    exact ⟨nofun, nofun⟩
  · rw [program_bind run]
    constructor
    · intro ok
      exact ⟨a, m, rfl, ok⟩
    · rintro ⟨_, _, same, ok⟩
      cases same
      exact ok

theorem program_mapM {ε' : Type} (fault : ε' → ε) {look : α → ExceptT ε (StateM σ) β}
    {found : α → Except ε' β}
    (each : ∀ a, (ExceptT.run (look a)).run s = ((found a).mapError fault, s)) (list : List α) :
    (ExceptT.run (list.mapM look)).run s = ((list.mapM found).mapError fault, s) := by
  induction list with
  | nil => rfl
  | cons a list ih =>
    rw [List.mapM_cons, List.mapM_cons]
    have first := each a
    cases here : found a with
    | error e =>
      rw [here] at first
      exact program_bind_error first _
    | ok b =>
      rw [here] at first
      rw [program_bind first, bind_of_ok rfl]
      cases rest : list.mapM found with
      | error e =>
        rw [rest] at ih
        exact program_bind_error ih _
      | ok bs =>
        rw [rest] at ih
        rw [program_bind ih]
        rfl

end Programs

end CryptoConditions
