import CryptoConditions.Proofs.Threshold.Buckets
import CryptoConditions.Threshold.Size
import CryptoConditions.Bytes
import Mathlib.Data.List.Induction

/-! The search for a payload over the bytes of its entries. It goes from the first part to the
last and keeps one candidate for every sum: the shortest one, and of the shortest ones that whose
bytes come first. It fails as soon as it would keep too many. -/

namespace CryptoConditions.Threshold

namespace Buckets

variable {α : Type} {better : α → α → α} {P : Nat → α → Prop}

/-- Values in the buckets of their sums, where the better one stays. -/
def gather (better : α → α → α) (found : List (Nat × α)) : Buckets α :=
  found.foldl (fun kept one => merge better kept [one]) []

theorem gather_append_singleton (found : List (Nat × α)) (one : Nat × α) :
    gather better (found ++ [one]) = merge better (gather better found) [one] := by
  rw [gather, List.foldl_append]
  rfl

theorem forall_gather (closed : ∀ sum x y, P sum x → P sum y → P sum (better x y))
    {found : List (Nat × α)} (all : ∀ b ∈ found, P b.1 b.2) :
    ∀ b ∈ gather better found, P b.1 b.2 := by
  induction found using List.reverseRecOn with
  | nil => exact List.forall_mem_nil _
  | append_singleton found one ih =>
    rw [List.forall_mem_append] at all
    rw [gather_append_singleton]
    exact forall_merge closed (ih all.1) all.2

theorem gather_rising (found : List (Nat × α)) : Rising (gather better found) := by
  induction found using List.reverseRecOn with
  | nil => exact List.Pairwise.nil
  | append_singleton found one ih =>
    rw [gather_append_singleton]
    exact merge_rising ih (List.pairwise_singleton _ _)

theorem gather_covers {asGood : α → α → Prop} (prefers : Prefers asGood better)
    {found : List (Nat × α)} {sum : Nat} {value : α} (mem : (sum, value) ∈ found) :
    Covers asGood (gather better found) sum value := by
  induction found using List.reverseRecOn with
  | nil => cases mem
  | append_singleton found one ih =>
    rw [gather_append_singleton]
    rcases List.mem_append.1 mem with before | last
    · exact (ih before).merge_left prefers
    · have here : Covers asGood [one] sum value := ⟨value, last, prefers.refl value⟩
      exact here.merge_right prefers

end Buckets

structure Offer where
  weight : Nat
  hidden : Bytes
  revealed : Option Bytes

/-- Entries written so far, and the flags they go by. -/
structure Candidate where
  encoding : Bytes
  flags : List Bool

namespace Candidate

def extend (candidate : Candidate) (entry : Bytes) (flag : Bool) : Candidate :=
  ⟨candidate.encoding ++ entry, candidate.flags ++ [flag]⟩

/-- Shorter, or as long and with bytes that come first. -/
def beats (p q : Candidate) : Bool :=
  decide (p.encoding.length < q.encoding.length) ||
    (p.encoding.length == q.encoding.length && decide (p.encoding < q.encoding))

def keep (current other : Candidate) : Candidate :=
  if other.beats current then other else current

def Ahead (p q : Candidate) : Prop :=
  p.encoding.length < q.encoding.length ∨
    p.encoding.length = q.encoding.length ∧ p.encoding ≤ q.encoding

variable {p q r : Candidate}

theorem ahead_of_not_beats (unbeaten : ¬ q.beats p = true) : Ahead p q := by
  simp only [beats, Bool.or_eq_true, Bool.and_eq_true, decide_eq_true_eq, beq_iff_eq] at unbeaten
  rcases Nat.lt_or_ge p.encoding.length q.encoding.length with shorter | longer
  · exact Or.inl shorter
  · have same : q.encoding.length = p.encoding.length := by omega
    exact Or.inr ⟨same.symm, List.not_lt.1 fun before => unbeaten (Or.inr ⟨same, before⟩)⟩

theorem ahead_of_beats (beaten : p.beats q = true) : Ahead p q := by
  simp only [beats, Bool.or_eq_true, Bool.and_eq_true, decide_eq_true_eq, beq_iff_eq] at beaten
  exact beaten.imp_right fun ⟨same, before⟩ => ⟨same, List.le_of_lt before⟩

theorem Ahead.refl (p : Candidate) : Ahead p p :=
  Or.inr ⟨rfl, List.le_refl _⟩

theorem Ahead.trans (first : Ahead p q) (second : Ahead q r) : Ahead p r := by
  rcases first with shorter | ⟨same, le⟩
  · exact Or.inl (by rcases second with less | ⟨eq, _⟩ <;> omega)
  · rcases second with shorter | ⟨same', le'⟩
    · exact Or.inl (by omega)
    · exact Or.inr ⟨same.trans same', List.le_trans le le'⟩

theorem prefers_keep : Buckets.Prefers Ahead keep where
  refl := Ahead.refl
  trans := Ahead.trans
  left current other := by
    unfold keep
    split
    · next beaten => exact ahead_of_beats beaten
    · exact Ahead.refl current
  right current other := by
    unfold keep
    split
    · exact Ahead.refl other
    · next unbeaten => exact ahead_of_not_beats unbeaten

theorem keep_closed {P : Candidate → Prop} (left : P p) (right : P q) : P (p.keep q) := by
  unfold keep
  split
  · exact right
  · exact left

theorem append_le_append {front back : Bytes} (same : front.length = back.length)
    (le : front ≤ back) (rest : Bytes) : front ++ rest ≤ back ++ rest := by
  induction front generalizing back with
  | nil =>
    rw [List.eq_nil_of_length_eq_zero same.symm]
    exact List.le_refl _
  | cons first front ih =>
    obtain ⟨other, back, rfl⟩ := List.exists_cons_of_length_eq_add_one same.symm
    rw [List.cons_append, List.cons_append]
    rcases List.cons_le_cons_iff.1 le with less | ⟨rfl, tail⟩
    · exact List.cons_le_cons_iff.2 (Or.inl less)
    · exact List.cons_le_cons_iff.2 (Or.inr ⟨rfl, ih (Nat.succ.inj same) tail⟩)

theorem Ahead.extend (ahead : Ahead p q) (entry : Bytes) (flag : Bool) :
    Ahead (p.extend entry flag) (q.extend entry flag) := by
  simp only [Ahead, Candidate.extend, List.length_append]
  rcases ahead with shorter | ⟨same, le⟩
  · exact Or.inl (Nat.add_lt_add_right shorter _)
  · exact Or.inr ⟨congrArg (· + entry.length) same, append_le_append same le entry⟩

end Candidate

def candidates (needed : Nat) (offer : Offer) (bucket : Nat × Candidate) :
    List (Nat × Candidate) :=
  (bucket.1, bucket.2.extend offer.hidden false) ::
    match offer.revealed with
    | none => []
    | some entry => [(min needed (bucket.1 + offer.weight), bucket.2.extend entry true)]

def advance (needed : Nat) (buckets : Buckets Candidate) (offer : Offer) : Buckets Candidate :=
  Buckets.gather Candidate.keep (buckets.flatMap (candidates needed offer))

def searchStep (needed : Nat) (buckets : Buckets Candidate) (offer : Offer) :
    Except ConditionError (Buckets Candidate) :=
  let next := advance needed buckets offer
  if maxSums < next.length then .error (.fulfillment (.tooManySums maxSums)) else .ok next

def cheapestBytes? (needed : Nat) (offers : List Offer) :
    Except ConditionError (Option Candidate) := do
  let buckets ← offers.foldlM (searchStep needed) [(0, ⟨[], []⟩)]
  return buckets.lookup needed

end CryptoConditions.Threshold
