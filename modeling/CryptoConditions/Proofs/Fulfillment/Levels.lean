import CryptoConditions.Proofs.Fulfillment.Reading
import CryptoConditions.Proofs.Fulfillment.Received

/-! What the levels do when bytes are read. Nothing that is read stands deeper than they
go, shown or not; where they suffice, it does not matter how many there are. What is
read once would be received as it is. -/

namespace CryptoConditions.Fulfillment

/-- The fulfillments in a fulfillment, shown or not, with their levels below it. -/
inductive Nests : Fulfillment → Nat → Fulfillment → Prop where
  | root (f : Fulfillment) : Nests f 0 f
  | prefixed {w : Weight} {lead : Bytes} {sub g : Fulfillment} {c : Condition} {depth : Nat}
      (inner : Nests sub depth g) : Nests (.prefixed w lead sub c) (depth + 1) g
  | part {w : Weight} {needed : UInt32} {subs : List Fulfillment} {selection : Selection}
      {sub g : Fulfillment} {c : Condition} {depth : Nat} (mem : sub ∈ subs)
      (inner : Nests sub depth g) : Nests (.threshold w needed subs selection c) (depth + 1) g

theorem Carries.nests {f g : Fulfillment} {depth : Nat} (carries : f.Carries depth g) :
    f.Nests depth g := by
  induction carries with
  | root f => exact .root f
  | prefixed _ ih => exact .prefixed ih
  | threshold revealed _ ih => exact .part (List.of_mem_zip revealed).1 ih

theorem Nests.withWeight {f g : Fulfillment} {depth : Nat} (nests : f.Nests (depth + 1) g)
    (w : Weight) : (f.withWeight w).Nests (depth + 1) g := by
  cases nests with
  | prefixed inner => exact .prefixed inner
  | part mem inner => exact .part mem inner

theorem Nests.of_withWeight {w : Weight} {f g : Fulfillment} {depth : Nat}
    (nests : (f.withWeight w).Nests depth g) : ∃ h, f.Nests depth h := by
  cases f with
  | prefixed =>
    cases nests with
    | root => exact ⟨_, .root _⟩
    | prefixed inner => exact ⟨g, .prefixed inner⟩
  | threshold =>
    cases nests with
    | root => exact ⟨_, .root _⟩
    | part mem inner => exact ⟨g, .part mem inner⟩
  | _ =>
    cases nests
    exact ⟨_, .root _⟩

theorem levels_pos_of_listed {levels : Nat} {needed : UInt32} {entries : List Entry}
    {list order : List (Fulfillment × Bool)} (nonzero : needed ≠ 0)
    (enough : needed.toNat ≤ revealedWeight order) (perm : order.Perm list)
    (listed : List.Forall₂ (Entry.ReadAs (ofPayload levels)) entries list) : 0 < levels := by
  -- A part is revealed, and reading it takes a level below.
  have pos : 0 < needed.toNat :=
    Nat.pos_of_ne_zero fun zero => nonzero (UInt32.toNat_inj.1 zero)
  have shown : order.filter Prod.snd ≠ [] := by
    intro empty
    rw [revealedWeight, empty] at enough
    exact absurd enough (Nat.not_le.2 pos)
  obtain ⟨found, mem⟩ := List.exists_mem_of_ne_nil _ shown
  obtain ⟨inside, flag⟩ := List.mem_filter.1 mem
  obtain ⟨entry, _, readAs⟩ := exists_of_mem_right listed (perm.mem_iff.1 inside)
  cases readAs with
  | hidden => cases flag
  | revealed framed =>
    obtain ⟨_, _, _, below⟩ := readFrame_ok (ofPayload_faithful levels) framed
    cases levels with
    | zero => cases below
    | succ levels => exact Nat.succ_pos levels

theorem Nests.lt_levels {levels type : Nat} {payload : Bytes} {f g : Fulfillment} {depth : Nat}
    (nests : f.Nests depth g) (ok : ofPayload levels type payload = .ok f) : depth < levels := by
  induction levels generalizing type payload f g depth with
  | zero => cases ok
  | succ levels ih =>
    have inner {binary sub g depth} (framed : whole (readFrame (ofPayload levels)) binary = .ok sub)
        (nests : sub.Nests depth g) : depth < levels := by
      obtain ⟨_, _, _, below⟩ := readFrame_ok (ofPayload_faithful levels) framed
      exact ih nests below
    obtain ⟨_, parsed⟩ := ofPayload_ok ok
    cases nests with
    | root => exact Nat.succ_pos levels
    | prefixed below =>
      cases parsed with
      | prefixed short framed made => exact Nat.succ_lt_succ (inner framed below)
    | part mem below =>
      cases parsed with
      | threshold fits listed made =>
        obtain ⟨order, c, same, perm, shape, enough, _⟩ := ofEntries_eq_ok made
        cases same
        obtain ⟨found, inside, rfl⟩ := List.mem_map.1 mem
        obtain ⟨entry, _, readAs⟩ := exists_of_mem_right listed (perm.mem_iff.1 inside)
        cases readAs with
        | revealed framed =>
          obtain ⟨h, nests⟩ := below.of_withWeight
          exact Nat.succ_lt_succ (inner framed nests)
        | hidden =>
          -- One level down, and some revealed part of the same threshold was read there.
          cases below
          exact Nat.succ_lt_succ
            (levels_pos_of_listed (checkShape_eq_ok.1 shape).1 enough perm listed)

section Unique

variable {read read' : PayloadReader}

theorem readFrame_unique (faithful : Faithful read) (faithful' : Faithful read')
    (below : ∀ {type payload f g}, read type payload = .ok f → read' type payload = .ok g → f = g)
    {binary : Bytes} {f g : Fulfillment} (first : whole (readFrame read) binary = .ok f)
    (second : whole (readFrame read') binary = .ok g) : f = g := by
  obtain ⟨payload, form, _, made⟩ := readFrame_ok faithful first
  obtain ⟨payload', form', _, made'⟩ := readFrame_ok faithful' second
  obtain ⟨types, rfl⟩ := frame_injective (form.symm.trans form')
  rw [← types] at made'
  exact below made made'

theorem listed_unique
    (inner : ∀ {binary sub other}, whole (readFrame read) binary = .ok sub →
      whole (readFrame read') binary = .ok other → sub = other)
    {entries : List Entry} {list others : List (Fulfillment × Bool)}
    (listed : List.Forall₂ (Entry.ReadAs read) entries list)
    (listed' : List.Forall₂ (Entry.ReadAs read') entries others) : list = others := by
  induction listed generalizing others with
  | nil =>
    cases listed'
    rfl
  | cons readAs _ ih =>
    cases listed' with
    | cons readAs' rest =>
      have tails := ih rest
      cases readAs with
      | hidden =>
        cases readAs'
        rw [tails]
      | revealed framed =>
        cases readAs' with
        | revealed framed' => rw [inner framed framed', tails]

end Unique

theorem ofPayload_unique {m n type : Nat} {payload : Bytes} {f g : Fulfillment}
    (first : ofPayload m type payload = .ok f) (second : ofPayload n type payload = .ok g) :
    f = g := by
  induction m generalizing n type payload f g with
  | zero => cases first
  | succ m ih =>
    cases n with
    | zero => cases second
    | succ n =>
      have inner {binary sub other} (framed : whole (readFrame (ofPayload m)) binary = .ok sub)
          (framed' : whole (readFrame (ofPayload n)) binary = .ok other) : sub = other :=
        readFrame_unique (ofPayload_faithful m) (ofPayload_faithful n) ih framed framed'
      obtain ⟨rfl, _⟩ := ofPayload_ok first
      rw [ofPayload_succ] at first second
      cases known : f.type with
      | prefixed =>
        simp only [known] at first second
        obtain ⟨lead, binary, sub, rfl, short, framed, made⟩ := ofPrefixPayload_ok first
        obtain ⟨lead', _, other, form, short', framed', made'⟩ := ofPrefixPayload_ok second
        obtain ⟨rfl, rfl⟩ := Wire.octets_append_inj short short' form
        rw [inner framed framed', made'] at made
        exact (Except.ok.inj made).symm
      | threshold =>
        simp only [known] at first second
        obtain ⟨needed, entries, list, rfl, fits, listed, made⟩ := ofThresholdPayload_ok first
        obtain ⟨other, entries', list', form, _, listed', made'⟩ := ofThresholdPayload_ok second
        unfold Threshold.maxPayload at fits
        obtain ⟨rfl, rfl⟩ := listing_inj form (by omega)
        rw [listed_unique inner listed listed', made'] at made
        exact (Except.ok.inj made).symm
      | _ =>
        -- No level is needed for what holds no fulfillment.
        simp only [known] at first second
        exact Except.ok.inj (first.symm.trans second)

theorem read_unique {m n : Nat} {binary : Bytes} {f g : Fulfillment}
    (first : whole (readFrame (ofPayload m)) binary = .ok f)
    (second : whole (readFrame (ofPayload n)) binary = .ok g) : f = g :=
  readFrame_unique (ofPayload_faithful m) (ofPayload_faithful n) ofPayload_unique first second

theorem receivedParts_of_read {read : PayloadReader} {list : List (Fulfillment × Bool)}
    (inner : ∀ binary sub, whole (readFrame read) binary = .ok sub → sub.received = sub)
    (each : ∀ found ∈ list, ∃ entry : Entry, entry.ReadAs read found) :
    receivedParts (list.map Prod.fst) (list.map Prod.snd) = list.map Prod.fst := by
  induction list with
  | nil => simp [receivedParts]
  | cons found list ih =>
    rw [List.forall_mem_cons] at each
    have rest := ih each.2
    obtain ⟨entry, readAs⟩ := each.1
    cases readAs with
    | revealed framed =>
      simp only [List.map_cons, receivedParts, received_withWeight, weight_withWeight,
        inner _ _ framed, rest]
    | hidden => simp only [List.map_cons, receivedParts, condition, weight, rest]

theorem ofPayload_received {levels type : Nat} {payload : Bytes} {f : Fulfillment}
    (ok : ofPayload levels type payload = .ok f) : f.received = f := by
  induction levels generalizing type payload f with
  | zero => cases ok
  | succ levels ih =>
    have inner binary sub (framed : whole (readFrame (ofPayload levels)) binary = .ok sub) :
        sub.received = sub := by
      obtain ⟨_, _, _, below⟩ := readFrame_ok (ofPayload_faithful levels) framed
      exact ih below
    obtain ⟨_, parsed⟩ := ofPayload_ok ok
    cases parsed with
    | prefixed short framed made => rw [received, inner _ _ framed]
    | threshold fits listed made =>
      obtain ⟨order, c, same, perm, _⟩ := ofEntries_eq_ok made
      cases same
      have parts := receivedParts_of_read inner fun found mem =>
        (exists_of_mem_right listed (perm.mem_iff.1 mem)).imp fun _ inside => inside.2
      simp only [received, parts]
    | _ => simp only [received]

end CryptoConditions.Fulfillment
