import CryptoConditions.Proofs.Threshold.Buckets
import CryptoConditions.Threshold.Selection

/-! The search for the parts to reveal goes through choices only: what it keeps
for a sum is a choice of parts that can be revealed, with the length of its
entries, and the sum is the weight of the choice up to the weight needed. It
goes through all of them: every choice is met by a plan that is kept for its
sum and is no worse, since what follows adds as much to either. -/

namespace CryptoConditions.Threshold

/-- Flags for shares that reveal only what can be revealed, with the length of the entries and
the weight that is revealed. -/
inductive Choice : List Share → List Bool → (length weight : Nat) → Prop where
  | nil : Choice [] [] 0 0
  | hide {share : Share} {shares : List Share} {flags : List Bool} {length weight : Nat}
      (rest : Choice shares flags length weight) :
      Choice (share :: shares) (false :: flags) (hiddenLength share.part + length) weight
  | reveal {share : Share} {shares : List Share} {flags : List Bool} {length weight : Nat}
      {binary : Nat} (shown : share.revealed = some binary)
      (rest : Choice shares flags length weight) :
      Choice (share :: shares) (true :: flags) (revealedLength share.part binary + length)
        (share.part.weight.toNat + weight)

theorem Choice.perm {shares others : List Share} (perm : shares.Perm others) {flags : List Bool}
    {length weight : Nat} (choice : Choice shares flags length weight) :
    ∃ arranged, Choice others arranged length weight := by
  induction perm generalizing flags length weight with
  | nil => exact ⟨flags, choice⟩
  | cons share _ ih =>
    cases choice with
    | hide rest =>
      obtain ⟨arranged, other⟩ := ih rest
      exact ⟨_, .hide other⟩
    | reveal shown rest =>
      obtain ⟨arranged, other⟩ := ih rest
      exact ⟨_, .reveal shown other⟩
  | swap first second shares =>
    cases choice with
    | hide rest =>
      cases rest with
      | hide rest =>
        rw [Nat.add_left_comm]
        exact ⟨_, .hide (.hide rest)⟩
      | reveal shown rest =>
        rw [Nat.add_left_comm]
        exact ⟨_, .reveal shown (.hide rest)⟩
    | reveal shown rest =>
      cases rest with
      | hide rest =>
        rw [Nat.add_left_comm]
        exact ⟨_, .hide (.reveal shown rest)⟩
      | reveal shown' rest =>
        rw [Nat.add_left_comm, Nat.add_left_comm (Weight.toNat _)]
        exact ⟨_, .reveal shown' (.reveal shown rest)⟩
  | trans _ _ ih ih' =>
    obtain ⟨_, other⟩ := ih choice
    exact ih' other

theorem Plan.better_closed {P : Plan → Prop} {p q : Plan} (left : P p) (right : P q) :
    P (p.better q) := by
  unfold Plan.better
  split
  · exact left
  · split
    · exact right
    · split
      · exact left
      · exact right

def Planned (needed : Nat) (shares : List Share) (sum : Nat) (plan : Plan) : Prop :=
  ∃ weight, Choice shares plan.flags plan.length weight ∧ sum = min needed weight

/-- A plan that reveals the first share, whose weight its sum does not count yet. -/
def Lagging (needed : Nat) (share : Share) (shares : List Share) (sum : Nat) (plan : Plan) : Prop :=
  ∃ weight, Choice (share :: shares) plan.flags plan.length (share.part.weight.toNat + weight) ∧
    sum = min needed weight

section Lagging

variable {needed sum : Nat} {share : Share} {shares : List Share} {plan : Plan}

theorem Lagging.planned_of_lt (lagging : Lagging needed share shares sum plan)
    (low : sum + share.part.weight.toNat < needed) :
    Planned needed (share :: shares) (sum + share.part.weight.toNat) plan := by
  obtain ⟨weight, choice, eq⟩ := lagging
  exact ⟨_, choice, by omega⟩

theorem Lagging.planned_of_le (lagging : Lagging needed share shares sum plan)
    (high : needed ≤ sum + share.part.weight.toNat) :
    Planned needed (share :: shares) needed plan := by
  obtain ⟨weight, choice, eq⟩ := lagging
  exact ⟨_, choice, by omega⟩

end Lagging

theorem plans_planned (needed : Nat) (shares : List Share) :
    ∀ bucket ∈ plans needed shares, Planned needed shares bucket.1 bucket.2 := by
  induction shares with
  | nil =>
    intro bucket mem
    rw [plans, List.mem_singleton] at mem
    subst mem
    exact ⟨0, .nil, by simp⟩
  | cons share shares ih =>
    have hidden : ∀ bucket ∈ (plans needed shares).map (Plan.hide share),
        Planned needed (share :: shares) bucket.1 bucket.2 := by
      intro bucket mem
      obtain ⟨old, inside, rfl⟩ := List.mem_map.1 mem
      obtain ⟨weight, choice, sum⟩ := ih old inside
      exact ⟨weight, .hide choice, sum⟩
    cases can : share.revealed with
    | none => simpa only [plans, can] using hidden
    | some binary =>
      have closed : ∀ sum p q, Planned needed (share :: shares) sum p →
          Planned needed (share :: shares) sum q →
          Planned needed (share :: shares) sum (p.better q) :=
        fun _ _ _ left right => Plan.better_closed left right
      have shown : ∀ bucket ∈ (plans needed shares).map (Plan.reveal share binary),
          Lagging needed share shares bucket.1 bucket.2 := by
        intro bucket mem
        obtain ⟨old, inside, rfl⟩ := List.mem_map.1 mem
        obtain ⟨weight, choice, sum⟩ := ih old inside
        exact ⟨weight, .reveal can choice, sum⟩
      have raised := Buckets.forall_raise closed (fun _ _ => Lagging.planned_of_lt)
        (fun _ _ => Lagging.planned_of_le) shown
      simpa only [plans, can] using Buckets.forall_merge closed hidden raised

namespace Plan

theorem flagsBefore_cons_cons {x y : Bool} {a b : List Bool} :
    flagsBefore (x :: a) (y :: b) = true ↔
      x = false ∧ y = true ∨ x = y ∧ flagsBefore a b = true := by
  cases x <;> cases y <;> simp [flagsBefore]

theorem flagsBefore_nil (x : Bool) (a : List Bool) : flagsBefore (x :: a) [] = false := by
  cases x <;> rfl

theorem flagsBefore_refl (a : List Bool) : flagsBefore a a = true := by
  induction a with
  | nil => rfl
  | cons x a ih => exact flagsBefore_cons_cons.2 (Or.inr ⟨rfl, ih⟩)

theorem flagsBefore_total (a b : List Bool) :
    flagsBefore a b = true ∨ flagsBefore b a = true := by
  induction a generalizing b with
  | nil => exact Or.inl rfl
  | cons x a ih =>
    cases b with
    | nil => exact Or.inr rfl
    | cons y b =>
      rw [flagsBefore_cons_cons, flagsBefore_cons_cons]
      rcases ih b with before | before
      · cases x <;> cases y <;> simp [before]
      · cases x <;> cases y <;> simp [before]

theorem flagsBefore_trans {a b c : List Bool} (ab : flagsBefore a b = true)
    (bc : flagsBefore b c = true) : flagsBefore a c = true := by
  induction a generalizing b c with
  | nil => rfl
  | cons x a ih =>
    cases b with
    | nil => rw [flagsBefore_nil] at ab; cases ab
    | cons y b =>
      cases c with
      | nil => rw [flagsBefore_nil] at bc; cases bc
      | cons z c =>
        rw [flagsBefore_cons_cons] at *
        rcases ab with ⟨rfl, rfl⟩ | ⟨rfl, ab⟩
        · rcases bc with ⟨same, _⟩ | ⟨rfl, _⟩
          · cases same
          · exact Or.inl ⟨rfl, rfl⟩
        · exact bc.imp_right fun ⟨same, bc⟩ => ⟨same, ih ab bc⟩

def NoWorse (p q : Plan) : Prop :=
  p.length < q.length ∨ p.length = q.length ∧ flagsBefore p.flags q.flags = true

theorem NoWorse.length_le {p q : Plan} (noWorse : NoWorse p q) : p.length ≤ q.length := by
  rcases noWorse with shorter | ⟨same, _⟩
  · exact Nat.le_of_lt shorter
  · exact Nat.le_of_eq same

theorem prefers_better : Buckets.Prefers NoWorse better where
  refl p := Or.inr ⟨rfl, flagsBefore_refl p.flags⟩
  trans {p q r} first second := by
    rcases first with shorter | ⟨same, before⟩
    · exact Or.inl (by rcases second with less | ⟨eq, _⟩ <;> omega)
    · rcases second with shorter | ⟨same', before'⟩
      · exact Or.inl (by omega)
      · exact Or.inr ⟨by omega, flagsBefore_trans before before'⟩
  left p q := by
    unfold better
    split
    · exact Or.inr ⟨rfl, flagsBefore_refl _⟩
    · split
      · next less => exact Or.inl less
      · split
        · exact Or.inr ⟨rfl, flagsBefore_refl _⟩
        · next after => exact Or.inr ⟨by omega, (flagsBefore_total _ _).resolve_left after⟩
  right p q := by
    unfold better
    split
    · next less => exact Or.inl less
    · split
      · exact Or.inr ⟨rfl, flagsBefore_refl _⟩
      · split
        · next before => exact Or.inr ⟨by omega, before⟩
        · exact Or.inr ⟨rfl, flagsBefore_refl _⟩

theorem NoWorse.hide {p q : Plan} (noWorse : NoWorse p q) (share : Share) :
    NoWorse (p.hide share) (q.hide share) := by
  rcases noWorse with shorter | ⟨same, before⟩
  · exact Or.inl (Nat.add_lt_add_left shorter _)
  · exact Or.inr ⟨congrArg (_ + ·) same, flagsBefore_cons_cons.2 (Or.inr ⟨rfl, before⟩)⟩

theorem NoWorse.reveal {p q : Plan} (noWorse : NoWorse p q) (share : Share) (binary : Nat) :
    NoWorse (p.reveal share binary) (q.reveal share binary) := by
  rcases noWorse with shorter | ⟨same, before⟩
  · exact Or.inl (Nat.add_lt_add_left shorter _)
  · exact Or.inr ⟨congrArg (_ + ·) same, flagsBefore_cons_cons.2 (Or.inr ⟨rfl, before⟩)⟩

end Plan

theorem plans_hidden {share : Share} (needed : Nat) (shares : List Share)
    (unknown : share.revealed = none) :
    plans needed (share :: shares) = (plans needed shares).map (Plan.hide share) := by
  simp only [plans, unknown]

theorem plans_revealed {share : Share} {binary : Nat} (needed : Nat) (shares : List Share)
    (known : share.revealed = some binary) :
    plans needed (share :: shares) = Buckets.merge Plan.better
      ((plans needed shares).map (Plan.hide share))
      (Buckets.raise Plan.better needed share.part.weight.toNat
        ((plans needed shares).map (Plan.reveal share binary))) := by
  simp only [plans, known]

theorem plans_rising (needed : Nat) (shares : List Share) :
    Buckets.Rising (plans needed shares) := by
  induction shares with
  | nil => exact List.pairwise_singleton _ _
  | cons share shares ih =>
    cases can : share.revealed with
    | none =>
      rw [plans_hidden needed shares can]
      exact Buckets.map_rising ih
    | some binary =>
      rw [plans_revealed needed shares can]
      exact Buckets.merge_rising (Buckets.map_rising ih)
        (Buckets.raise_rising (Buckets.map_rising ih))

theorem plans_covers (needed : Nat) {shares : List Share} {flags : List Bool}
    {length weight : Nat} (choice : Choice shares flags length weight) :
    Buckets.Covers Plan.NoWorse (plans needed shares) (min needed weight) ⟨length, flags⟩ := by
  induction choice with
  | nil =>
    rw [Nat.min_zero]
    exact ⟨⟨0, []⟩, List.mem_singleton.2 rfl, Plan.prefers_better.refl _⟩
  | @hide share shares flags length weight rest ih =>
    have hidden : Buckets.Covers Plan.NoWorse ((plans needed shares).map (Plan.hide share))
        (min needed weight) ⟨hiddenLength share.part + length, false :: flags⟩ :=
      ih.map fun _ _ noWorse => noWorse.hide share
    cases can : share.revealed with
    | none =>
      rw [plans_hidden needed shares can]
      exact hidden
    | some binary =>
      rw [plans_revealed needed shares can]
      exact hidden.merge_left Plan.prefers_better
  | @reveal share shares flags length weight binary shown rest ih =>
    have revealed : Buckets.Covers Plan.NoWorse
        ((plans needed shares).map (Plan.reveal share binary)) (min needed weight)
        ⟨revealedLength share.part binary + length, true :: flags⟩ :=
      ih.map fun _ _ noWorse => noWorse.reveal share binary
    have raised := revealed.raise Plan.prefers_better needed share.part.weight.toNat
    have sum : min needed (min needed weight + share.part.weight.toNat) =
        min needed (share.part.weight.toNat + weight) := by omega
    rw [sum] at raised
    rw [plans_revealed needed shares shown]
    exact raised.merge_right Plan.prefers_better

theorem select_cases (needed : UInt32) (shares : List Share) :
    (select needed shares = .unsatisfied (available shares) ∧
        ∀ flags length weight, Choice shares flags length weight → weight < needed.toNat) ∨
      ∃ flags length weight, Choice shares flags length weight ∧ needed.toNat ≤ weight ∧
        (∀ others more sum, Choice shares others more sum → needed.toNat ≤ sum →
          Plan.NoWorse ⟨length, flags⟩ ⟨more, others⟩) ∧
        select needed shares = if maxPayload < headerLength shares.length + length
          then .tooLarge (headerLength shares.length + length) else .revealed flags := by
  have kept {flags : List Bool} {length weight : Nat} (choice : Choice shares flags length weight)
      (enough : needed.toNat ≤ weight) :
      ∃ plan, cheapest? needed.toNat shares = some plan ∧ plan.NoWorse ⟨length, flags⟩ :=
    (plans_covers needed.toNat choice).lookup (plans_rising _ _) enough
  cases found : cheapest? needed.toNat shares with
  | none =>
    refine Or.inl ⟨by simp only [select, found], fun flags length weight choice => ?_⟩
    refine Nat.lt_of_not_le fun enough => ?_
    obtain ⟨plan, other, _⟩ := kept choice enough
    rw [found] at other
    cases other
  | some plan =>
    obtain ⟨weight, choice, sum⟩ := plans_planned _ _ _ (Buckets.mem_of_lookup found)
    refine Or.inr ⟨plan.flags, plan.length, weight, choice, by omega, ?_,
      by simp only [select, found]⟩
    intro others more sum other enough
    obtain ⟨best, same, noWorse⟩ := kept other enough
    rw [found] at same
    cases same
    exact noWorse

theorem select_of_choice {needed : UInt32} {shares : List Share} {flags : List Bool}
    {length weight : Nat} (choice : Choice shares flags length weight)
    (enough : needed.toNat ≤ weight) (fits : headerLength shares.length + length ≤ maxPayload) :
    ∃ best least sum, select needed shares = .revealed best ∧ Choice shares best least sum ∧
      least ≤ length := by
  rcases select_cases needed shares with
    ⟨_, short⟩ | ⟨best, least, sum, other, _, noWorse, cut⟩
  · exact absurd (short _ _ _ choice) (Nat.not_lt.2 enough)
  · have le : least ≤ length := (noWorse _ _ _ choice enough).length_le
    rw [if_neg (by omega)] at cut
    exact ⟨best, least, sum, cut, other, le⟩

theorem select_revealed {needed : UInt32} {shares : List Share} {flags : List Bool}
    (selected : select needed shares = .revealed flags) :
    ∃ length weight, Choice shares flags length weight ∧ needed.toNat ≤ weight ∧
      headerLength shares.length + length ≤ maxPayload := by
  rcases select_cases needed shares with ⟨none, _⟩ | ⟨best, length, weight, choice, enough, _, cut⟩
  · rw [none] at selected
    cases selected
  · rw [cut] at selected
    split at selected
    · cases selected
    · next fits =>
      cases selected
      exact ⟨length, weight, choice, enough, Nat.le_of_not_lt fits⟩

end CryptoConditions.Threshold
