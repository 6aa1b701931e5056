import CryptoConditions.Threshold.Buckets
import Mathlib.Data.Finset.Card

/-! Buckets stay in rising order of their sums, so a sum has one value; and no value is
ever dropped but for one that is as good. What holds of all values holds of all that
merging and raising make of them. -/

namespace CryptoConditions.Threshold.Buckets

variable {α β : Type} {P Q : Nat → α → Prop} {better : α → α → α}

theorem forall_merge (closed : ∀ sum x y, P sum x → P sum y → P sum (better x y))
    {xs ys : Buckets α} (left : ∀ b ∈ xs, P b.1 b.2) (right : ∀ b ∈ ys, P b.1 b.2) :
    ∀ b ∈ merge better xs ys, P b.1 b.2 := by
  fun_induction merge better xs ys with
  | case1 ys => exact right
  | case2 xs => exact left
  | case3 a x xs b y ys less ih =>
    simp only [List.forall_mem_cons] at left ⊢
    exact ⟨left.1, ih left.2 right⟩
  | case4 a x xs b y ys _ less ih =>
    have rest := ih left (fun c mem => right c (List.mem_cons_of_mem _ mem))
    simp only [List.forall_mem_cons] at right ⊢
    exact ⟨right.1, rest⟩
  | case5 a x xs b y ys above below ih =>
    simp only [List.forall_mem_cons] at left right ⊢
    have same : a = b := by omega
    exact ⟨closed a x y left.1 (by rw [same]; exact right.1), ih left.2 right.2⟩

theorem forall_raise {needed weight : Nat}
    (closed : ∀ sum x y, Q sum x → Q sum y → Q sum (better x y))
    (below : ∀ sum x, P sum x → sum + weight < needed → Q (sum + weight) x)
    (reached : ∀ sum x, P sum x → needed ≤ sum + weight → Q needed x)
    {buckets : Buckets α} (all : ∀ b ∈ buckets, P b.1 b.2) :
    ∀ b ∈ raise better needed weight buckets, Q b.1 b.2 := by
  have best (value : α) (rest : Buckets α) (first : Q needed value)
      (others : ∀ b ∈ rest, Q needed b.2) :
      Q needed (rest.foldl (fun best bucket => better best bucket.2) value) := by
    induction rest generalizing value with
    | nil => exact first
    | cons b rest ih =>
      simp only [List.forall_mem_cons] at others
      exact ih _ (closed needed _ _ first others.1) others.2
  intro b mem
  simp only [raise, List.mem_append, List.mem_map, List.mem_filter, decide_eq_true_eq] at mem
  rcases mem with ⟨old, ⟨inside, low⟩, rfl⟩ | mem
  · exact below _ _ (all old inside) low
  · have high : ∀ old ∈ buckets.filter (fun bucket => needed ≤ bucket.1 + weight),
        Q needed old.2 := by
      intro old inside
      simp only [List.mem_filter, decide_eq_true_eq] at inside
      exact reached _ _ (all old inside.1) inside.2
    split at mem
    · cases mem
    · next value rest shape =>
      rw [shape, List.forall_mem_cons] at high
      rw [List.mem_singleton.1 mem]
      exact best _ rest high.1 high.2

def Rising (buckets : Buckets α) : Prop :=
  buckets.Pairwise fun a b => a.1 < b.1

theorem Rising.nodup {buckets : Buckets α} (rising : Rising buckets) :
    (List.map Prod.fst buckets).Nodup :=
  List.pairwise_map.2 (rising.imp Nat.ne_of_lt)

theorem Rising.length_le_card {buckets : Buckets α} (rising : Rising buckets) {sums : Finset Nat}
    (known : ∀ bucket ∈ buckets, bucket.1 ∈ sums) : buckets.length ≤ sums.card := by
  have inside : (List.map Prod.fst buckets).toFinset ⊆ sums := by
    intro sum mem
    obtain ⟨bucket, inside, rfl⟩ := List.mem_map.1 (List.mem_toFinset.1 mem)
    exact known bucket inside
  have le := Finset.card_le_card inside
  rwa [List.toFinset_card_of_nodup rising.nodup, List.length_map] at le

theorem Rising.length_le {buckets : Buckets α} (rising : Rising buckets) {others : Buckets β}
    (known : ∀ bucket ∈ buckets, ∃ value, (bucket.1, value) ∈ others) :
    buckets.length ≤ others.length := by
  have kept : ∀ bucket ∈ buckets, bucket.1 ∈ (List.map Prod.fst others).toFinset := by
    intro bucket mem
    obtain ⟨value, there⟩ := known bucket mem
    exact List.mem_toFinset.2 (List.mem_map_of_mem there)
  have distinct := List.toFinset_card_le (List.map Prod.fst others)
  rw [List.length_map] at distinct
  exact (rising.length_le_card kept).trans distinct

theorem merge_rising {xs ys : Buckets α} (left : Rising xs) (right : Rising ys) :
    Rising (merge better xs ys) := by
  -- A sum below all sums on both sides is below all sums of the merge.
  have above (bound : Nat) (xs ys : Buckets α) (left : ∀ b ∈ xs, bound < b.1)
      (right : ∀ b ∈ ys, bound < b.1) : ∀ b ∈ merge better xs ys, bound < b.1 :=
    @forall_merge α (fun sum _ => bound < sum) better (fun _ _ _ first _ => first) xs ys left right
  unfold Rising at left right ⊢
  fun_induction merge better xs ys with
  | case1 ys => exact right
  | case2 xs => exact left
  | case3 a x xs b y ys less ih =>
    rw [List.pairwise_cons] at left
    refine List.pairwise_cons.2 ⟨above a _ _ left.1 ?_, ih left.2 right⟩
    rw [List.pairwise_cons] at right
    exact List.forall_mem_cons.2 ⟨less, fun c mem => Nat.lt_trans less (right.1 c mem)⟩
  | case4 a x xs b y ys _ less ih =>
    rw [List.pairwise_cons] at right
    refine List.pairwise_cons.2 ⟨above b _ _ ?_ right.1, ih left right.2⟩
    rw [List.pairwise_cons] at left
    exact List.forall_mem_cons.2 ⟨less, fun c mem => Nat.lt_trans less (left.1 c mem)⟩
  | case5 a x xs b y ys _ _ ih =>
    rw [List.pairwise_cons] at left right
    have same : a = b := by omega
    subst same
    exact List.pairwise_cons.2 ⟨above a _ _ left.1 right.1, ih left.2 right.2⟩

theorem map_rising {f : α → β} {buckets : Buckets α} (rising : Rising buckets) :
    Rising (buckets.map f) :=
  List.pairwise_map.2 rising

theorem raise_rising {needed weight : Nat} {buckets : Buckets α} (rising : Rising buckets) :
    Rising (raise better needed weight buckets) := by
  have low : ∀ b ∈ (buckets.filter fun bucket => bucket.1 + weight < needed).map
      (fun bucket => (bucket.1 + weight, bucket.2)), b.1 < needed := by
    intro b mem
    simp only [List.mem_map, List.mem_filter, decide_eq_true_eq] at mem
    obtain ⟨old, ⟨_, less⟩, rfl⟩ := mem
    exact less
  refine List.pairwise_append.2 ⟨List.pairwise_map.2 ?_, ?_, ?_⟩
  · exact (List.Pairwise.filter _ rising).imp fun less => Nat.add_lt_add_right less weight
  · split
    · exact List.Pairwise.nil
    · exact List.pairwise_singleton _ _
  · intro b mem c last
    split at last
    · cases last
    · rw [List.mem_singleton.1 last]
      exact low b mem

theorem lookup_of_mem {buckets : Buckets α} (rising : Rising buckets) {sum : Nat} {value : α}
    (mem : (sum, value) ∈ buckets) : buckets.lookup sum = some value := by
  induction buckets with
  | nil => cases mem
  | cons first rest ih =>
    obtain ⟨key, held⟩ := first
    obtain ⟨above, rising⟩ := List.pairwise_cons.1 rising
    rcases List.mem_cons.1 mem with same | mem
    · cases same
      exact List.lookup_cons_self
    · have different : (sum == key) = false := beq_false_of_ne (Nat.ne_of_gt (above _ mem))
      rw [List.lookup_cons, different]
      exact ih rising mem

theorem mem_of_lookup {buckets : Buckets α} {sum : Nat} {value : α}
    (found : buckets.lookup sum = some value) : (sum, value) ∈ buckets := by
  obtain ⟨before, after, shape, _⟩ := List.lookup_eq_some_iff.1 found
  simp [shape]

/-- As good is an order, and the better of two values is as good as both. -/
structure Prefers (asGood : α → α → Prop) (better : α → α → α) : Prop where
  refl : ∀ x, asGood x x
  trans : ∀ {x y z}, asGood x y → asGood y z → asGood x z
  left : ∀ x y, asGood (better x y) x
  right : ∀ x y, asGood (better x y) y

theorem prefers_max : Prefers (fun x y : Nat => y ≤ x) max where
  refl := Nat.le_refl
  trans first second := Nat.le_trans second first
  left := Nat.le_max_left
  right := Nat.le_max_right

def Covers (asGood : α → α → Prop) (buckets : Buckets α) (sum : Nat) (value : α) : Prop :=
  ∃ best, (sum, best) ∈ buckets ∧ asGood best value

section Covers

variable {asGood : α → α → Prop} {sum : Nat} {value : α}

theorem Covers.lookup {buckets : Buckets α} {needed weight : Nat} (rising : Rising buckets)
    (covered : Covers asGood buckets (min needed weight) value) (enough : needed ≤ weight) :
    ∃ best, buckets.lookup needed = some best ∧ asGood best value := by
  obtain ⟨best, mem, good⟩ := covered
  rw [Nat.min_eq_left enough] at mem
  exact ⟨best, lookup_of_mem rising mem, good⟩

theorem Covers.of_cons {bucket : Nat × α} {buckets : Buckets α}
    (covers : Covers asGood buckets sum value) : Covers asGood (bucket :: buckets) sum value := by
  obtain ⟨best, mem, good⟩ := covers
  exact ⟨best, List.mem_cons_of_mem _ mem, good⟩

theorem Covers.map {asGood' : β → β → Prop} {f : α → β} {buckets : Buckets α}
    (covers : Covers asGood buckets sum value)
    (mono : ∀ x y, asGood x y → asGood' (f x) (f y)) :
    Covers asGood' (buckets.map f) sum (f value) := by
  obtain ⟨best, mem, good⟩ := covers
  exact ⟨f best, List.mem_map.2 ⟨_, mem, rfl⟩, mono _ _ good⟩

theorem Covers.merge_left (prefers : Prefers asGood better) {xs ys : Buckets α}
    (covers : Covers asGood xs sum value) : Covers asGood (merge better xs ys) sum value := by
  fun_induction merge better xs ys with
  | case1 ys =>
    obtain ⟨_, mem, _⟩ := covers
    cases mem
  | case2 xs => exact covers
  | case3 a x xs b y ys less ih =>
    obtain ⟨best, mem, good⟩ := covers
    rcases List.mem_cons.1 mem with same | mem
    · cases same
      exact ⟨x, List.mem_cons_self, good⟩
    · exact (ih ⟨best, mem, good⟩).of_cons
  | case4 a x xs b y ys _ less ih => exact (ih covers).of_cons
  | case5 a x xs b y ys _ _ ih =>
    obtain ⟨best, mem, good⟩ := covers
    rcases List.mem_cons.1 mem with same | mem
    · cases same
      exact ⟨better x y, List.mem_cons_self, prefers.trans (prefers.left x y) good⟩
    · exact (ih ⟨best, mem, good⟩).of_cons

theorem Covers.merge_right (prefers : Prefers asGood better) {xs ys : Buckets α}
    (covers : Covers asGood ys sum value) : Covers asGood (merge better xs ys) sum value := by
  fun_induction merge better xs ys with
  | case1 ys => exact covers
  | case2 xs =>
    obtain ⟨_, mem, _⟩ := covers
    cases mem
  | case3 a x xs b y ys less ih => exact (ih covers).of_cons
  | case4 a x xs b y ys _ less ih =>
    obtain ⟨best, mem, good⟩ := covers
    rcases List.mem_cons.1 mem with same | mem
    · cases same
      exact ⟨y, List.mem_cons_self, good⟩
    · exact (ih ⟨best, mem, good⟩).of_cons
  | case5 a x xs b y ys above below ih =>
    obtain ⟨best, mem, good⟩ := covers
    rcases List.mem_cons.1 mem with same | mem
    · cases same
      have same : a = sum := by omega
      subst same
      exact ⟨better x y, List.mem_cons_self, prefers.trans (prefers.right x y) good⟩
    · exact (ih ⟨best, mem, good⟩).of_cons

private theorem asGood_foldl (prefers : Prefers asGood better) (rest : Buckets α) (first : α) :
    asGood (rest.foldl (fun best bucket => better best bucket.2) first) first ∧
      ∀ b ∈ rest, asGood (rest.foldl (fun best bucket => better best bucket.2) first) b.2 := by
  induction rest generalizing first with
  | nil => exact ⟨prefers.refl first, nofun⟩
  | cons b rest ih =>
    obtain ⟨start, others⟩ := ih (better first b.2)
    rw [List.foldl_cons]
    exact ⟨prefers.trans start (prefers.left _ _),
      List.forall_mem_cons.2 ⟨prefers.trans start (prefers.right _ _), others⟩⟩

theorem Covers.raise (prefers : Prefers asGood better) (needed weight : Nat) {buckets : Buckets α}
    (covers : Covers asGood buckets sum value) :
    Covers asGood (Buckets.raise better needed weight buckets) (min needed (sum + weight))
      value := by
  obtain ⟨best, mem, good⟩ := covers
  by_cases low : sum + weight < needed
  · refine ⟨best, List.mem_append_left _ (List.mem_map.2 ⟨(sum, best), ?_, ?_⟩), good⟩
    · exact List.mem_filter.2 ⟨mem, decide_eq_true low⟩
    · rw [Nat.min_eq_right (Nat.le_of_lt low)]
  · have high : (sum, best) ∈ buckets.filter fun bucket => needed ≤ bucket.1 + weight :=
      List.mem_filter.2 ⟨mem, decide_eq_true (Nat.le_of_not_lt low)⟩
    rw [Nat.min_eq_left (Nat.le_of_not_lt low), Buckets.raise]
    cases shape : buckets.filter fun bucket => needed ≤ bucket.1 + weight with
    | nil =>
      rw [shape] at high
      cases high
    | cons first rest =>
      obtain ⟨start, others⟩ := asGood_foldl prefers rest first.2
      refine ⟨_, List.mem_append_right _ (List.mem_singleton.2 rfl), prefers.trans ?_ good⟩
      rw [shape] at high
      rcases List.mem_cons.1 high with same | mem
      · cases same
        exact start
      · exact others _ mem

end Covers

end CryptoConditions.Threshold.Buckets
