import CryptoConditions.Proofs.Fulfillment.Levels
import CryptoConditions.Proofs.Fulfillment.RoundTrip

/-! What is read has one canonical encoding. It is as long as the bytes that were read
and is read as the same fulfillment; the bytes can differ from it only where a threshold
in them lists its entries in another order. -/

namespace CryptoConditions.Fulfillment

/-- The payloads of thresholds in the bytes of a fulfillment. -/
inductive Lists : Bytes → Bytes → Prop where
  | root (payload : Bytes) : Lists (frame .threshold payload) payload
  | prefixed {lead binary payload : Bytes} (inner : Lists binary payload) :
      Lists (frame .prefixed (Wire.octets lead ++ binary)) payload
  | revealed {needed : UInt32} {entries : List Entry} {weight : Weight} {binary payload : Bytes}
      (mem : .revealed weight binary ∈ entries) (inner : Lists binary payload) :
      Lists (frame .threshold (listing needed entries)) payload

inductive Entry.Commits : Entry → Commitment → Prop where
  | revealed {weight : Weight} {binary : Bytes} {levels : Nat} {sub : Fulfillment}
      (read : whole (readFrame (ofPayload levels)) binary = .ok sub) :
      Commits (.revealed weight binary) ⟨sub.condition, weight, none⟩
  | hidden {weight : Weight} {condition : Condition} :
      Commits (.hidden weight condition) ⟨condition, weight, none⟩

/-- The entries of a threshold's payload stand in canonical order. -/
def InOrder (payload : Bytes) : Prop :=
  ∃ needed entries parts, payload = listing needed entries ∧
    List.Forall₂ Entry.Commits entries parts ∧ parts.Pairwise fun a b => a.precedes b = true

inductive Entry.Shows : Entry → Fulfillment × Bool → Prop where
  | revealed {sub : Fulfillment} {binary : Bytes} (written : sub.binary = .ok binary) :
      Shows (.revealed sub.weight binary) (sub, true)
  | hidden (sub : Fulfillment) : Shows (.hidden sub.weight sub.condition) (sub, false)

theorem entries_eq_ok {subs : List Fulfillment} {flags : List Bool} {bytes : Bytes} :
    entries subs flags = .ok bytes ↔
      ∃ list : List Entry, List.Forall₂ Entry.Shows list (subs.zip flags) ∧
        bytes = list.flatMap Entry.bytes := by
  induction subs generalizing flags bytes with
  | nil => simp [entries, eq_comm]
  | cons sub subs ih =>
    cases flags with
    | nil => simp [entries, eq_comm]
    | cons flag flags =>
      rw [List.zip_cons_cons]
      cases flag with
      | false =>
        rw [entries_false]
        constructor
        · rintro ⟨rest, others, rfl⟩
          obtain ⟨list, shows, rfl⟩ := ih.1 others
          exact ⟨_, .cons (.hidden sub) shows, rfl⟩
        · rintro ⟨_, shows, rfl⟩
          cases shows with
          | cons first shows =>
            cases first
            exact ⟨_, ih.2 ⟨_, shows, rfl⟩, rfl⟩
      | true =>
        rw [entries_true]
        constructor
        · rintro ⟨shown, rest, paid, others, rfl⟩
          obtain ⟨list, shows, rfl⟩ := ih.1 others
          exact ⟨_, .cons (.revealed (binary_eq_ok.2 ⟨shown, paid, rfl⟩)) shows, rfl⟩
        · rintro ⟨_, shows, rfl⟩
          cases shows with
          | cons first shows =>
            cases first with
            | revealed written =>
              obtain ⟨shown, paid, rfl⟩ := binary_eq_ok.1 written
              exact ⟨shown, _, paid, ih.2 ⟨_, shows, rfl⟩, rfl⟩

theorem share_of_listed {levels : Nat} {entries : List Entry} {list : List (Fulfillment × Bool)}
    {parts : List Commitment} (listed : List.Forall₂ (Entry.ReadAs (ofPayload levels)) entries list)
    (commits : List.Forall₂ Entry.Commits entries parts) :
    ((list.map Prod.fst).map commitment).map Commitment.share = parts.map Commitment.share := by
  induction listed generalizing parts with
  | nil =>
    cases commits
    rfl
  | cons readAs _ ih =>
    cases commits with
    | cons commit rest =>
      have tails := ih rest
      cases readAs with
      | hidden =>
        cases commit
        simp only [List.map_cons, tails]
        rfl
      | revealed framed =>
        cases commit with
        | revealed framed' =>
          simp only [List.map_cons, tails, commitment_withWeight, read_unique framed framed']
          rfl

theorem shows_of_listed {read : PayloadReader} {entries : List Entry}
    {list : List (Fulfillment × Bool)}
    (inner : ∀ weight binary sub, .revealed weight binary ∈ entries →
      whole (readFrame read) binary = .ok sub → sub.binary = .ok binary)
    (listed : List.Forall₂ (Entry.ReadAs read) entries list) :
    List.Forall₂ Entry.Shows entries list := by
  induction listed with
  | nil => exact .nil
  | cons readAs _ ih =>
    have rest := ih fun weight binary sub mem =>
      inner weight binary sub (List.mem_cons_of_mem _ mem)
    cases readAs with
    | @hidden weight condition => exact .cons (.hidden (withheld ⟨condition, weight, none⟩)) rest
    | @revealed weight binary sub framed =>
      have written : (sub.withWeight weight).binary = .ok binary := by
        rw [binary_withWeight]
        exact inner weight binary sub List.mem_cons_self framed
      have shows := Entry.Shows.revealed written
      rw [weight_withWeight] at shows
      exact .cons shows rest

theorem binary_of_inOrder {levels : Nat} {bytes : Bytes} {f : Fulfillment}
    (read : whole (readFrame (ofPayload levels)) bytes = .ok f)
    (ordered : ∀ payload, Lists bytes payload → InOrder payload) : f.binary = .ok bytes := by
  induction levels generalizing bytes f with
  | zero =>
    obtain ⟨_, _, _, below⟩ := readFrame_ok (ofPayload_faithful 0) read
    cases below
  | succ levels ih =>
    obtain ⟨payload, rfl, _, below⟩ := readFrame_ok (ofPayload_faithful _) read
    refine binary_eq_ok.2 ⟨payload, ?_, rfl⟩
    obtain ⟨_, parsed⟩ := ofPayload_ok below
    cases parsed with
    | @prefixed lead binary sub c short framed made =>
      have inner := ih framed fun payload lists => ordered payload (.prefixed lists)
      obtain ⟨shown, paid, rfl⟩ := binary_eq_ok.1 inner
      exact payload_prefixed_eq_ok.2 ⟨shown, paid, rfl⟩
    | @threshold needed found list subs flags c fits listed made =>
      obtain ⟨other, found', parts, form, commits, sorted⟩ := ordered _ (.root _)
      unfold Threshold.maxPayload at fits
      obtain ⟨rfl, rfl⟩ := listing_inj form (by omega)
      obtain ⟨order, c, same, _, _, _, _, _, stays⟩ := ofEntries_eq_ok made
      cases same
      -- Parts of equal weight and condition may stand either way; sorting leaves them.
      rw [stays (Commitment.pairwise_precedes_congr (share_of_listed listed commits).symm sorted)]
      have shows : List.Forall₂ Entry.Shows found list :=
        shows_of_listed (fun weight binary sub mem framed =>
          ih framed fun payload lists => ordered payload (.revealed mem lists)) listed
      have written : entries (list.map Prod.fst) (list.map Prod.snd) =
          .ok (found.flatMap Entry.bytes) :=
        entries_eq_ok.2 ⟨found, by rw [zip_unzipped]; exact shows, rfl⟩
      refine payload_revealed_eq_ok.2 ⟨_, written, ?_⟩
      rw [listing, List.length_map, listed.length_eq]
    | _ => simp only [Fulfillment.payload]

theorem Lists.of_frame {type : ConditionType} {payload listed : Bytes}
    (lists : Lists (frame type payload) listed) :
    type = .threshold ∧ listed = payload ∨
      (type = .prefixed ∧ ∃ lead binary, payload = Wire.octets lead ++ binary ∧
        Lists binary listed) ∨
      type = .threshold ∧ ∃ needed entries weight binary, payload = listing needed entries ∧
        .revealed weight binary ∈ entries ∧ Lists binary listed := by
  generalize form : frame type payload = bytes at lists
  cases lists with
  | root =>
    obtain ⟨rfl, rfl⟩ := frame_injective form
    exact Or.inl ⟨rfl, rfl⟩
  | prefixed inner =>
    obtain ⟨rfl, rfl⟩ := frame_injective form
    exact Or.inr (Or.inl ⟨rfl, _, _, rfl, inner⟩)
  | revealed mem inner =>
    obtain ⟨rfl, rfl⟩ := frame_injective form
    exact Or.inr (Or.inr ⟨rfl, _, _, _, _, rfl, mem, inner⟩)

theorem Written.commits {f : Fulfillment} {shown : Bytes} (h : f.Written shown)
    (small : shown.length < 2 ^ 64) :
    (Entry.revealed f.weight (frame f.type shown)).Commits ⟨f.condition, f.weight, none⟩ := by
  have read : whole (readFrame (ofPayload (f.shownDepth + 1))) (frame f.type shown) =
      .ok f.received := by
    rw [whole_readFrame f.type small, h.readBack small, outcome, if_pos (Nat.lt_succ_self _)]
  rw [← condition_received]
  exact .revealed read

theorem commits_of_shows {list : List Entry} {pairs : List (Fulfillment × Bool)}
    (inner : ∀ sub binary, (sub, true) ∈ pairs → sub.binary = .ok binary →
      (Entry.revealed sub.weight binary).Commits ⟨sub.condition, sub.weight, none⟩)
    (shows : List.Forall₂ Entry.Shows list pairs) :
    List.Forall₂ Entry.Commits list
      (pairs.map fun pair => ⟨pair.1.condition, pair.1.weight, none⟩) := by
  induction shows with
  | nil => exact .nil
  | cons first _ ih =>
    have rest := ih fun sub binary mem => inner sub binary (List.mem_cons_of_mem _ mem)
    cases first with
    | hidden => exact .cons .hidden rest
    | revealed written => exact .cons (inner _ _ List.mem_cons_self written) rest

theorem length_lt_of_shows {needed : UInt32} {list : List Entry} {pairs : List (Fulfillment × Bool)}
    (shows : List.Forall₂ Entry.Shows list pairs) (small : (listing needed list).length < 2 ^ 64)
    {sub : Fulfillment} {shown : Bytes} (revealed : (sub, true) ∈ pairs)
    (paid : sub.payload = .ok shown) : shown.length < 2 ^ 64 := by
  obtain ⟨entry, mem, first⟩ := exists_of_mem_right shows revealed
  cases first with
  | revealed binary =>
    rw [binary_eq_ok.2 ⟨shown, paid, rfl⟩] at binary
    cases binary
    have framed := length_lt_of_mem mem small
    rw [frame_length, Wire.octetsLength] at framed
    omega

theorem inOrder_of_shows {needed : UInt32} {subs : List Fulfillment} {flags : List Bool}
    {c : Condition} {list : List Entry} (assembled : Assembled needed subs (.revealed flags) c)
    (inner : ∀ sub shown, (sub, true) ∈ subs.zip flags → sub.payload = .ok shown →
      sub.Written shown)
    (shows : List.Forall₂ Entry.Shows list (subs.zip flags))
    (small : (listing needed list).length < 2 ^ 64) : InOrder (listing needed list) := by
  have committed := commits_of_shows (fun sub binary revealed made => by
    obtain ⟨shown, paid, rfl⟩ := binary_eq_ok.1 made
    have short := length_lt_of_shows shows small revealed paid
    exact (inner sub shown revealed paid).commits short) shows
  have long := (assembled.revealing flags rfl).length_eq
  have firsts : (subs.zip flags).map Prod.fst = subs := List.map_fst_zip (by omega)
  have sorted := assembled.sorted
  rw [← firsts] at sorted
  refine ⟨needed, list, _, rfl, committed, Commitment.pairwise_precedes_congr ?_ sorted⟩
  simp only [List.map_map]
  rfl

theorem Written.inOrder {f : Fulfillment} {shown : Bytes} (h : f.Written shown)
    (small : shown.length < 2 ^ 64) {payload : Bytes} (lists : Lists (frame f.type shown) payload) :
    InOrder payload := by
  induction h generalizing payload with
  | @prefixed w lead inner sub c made part ih =>
    rcases lists.of_frame with ⟨flat, _⟩ | ⟨_, lead', binary, form, below⟩ | ⟨flat, _⟩
    · cases flat
    · -- The payload splits in one way only.
      have small' := small
      rw [form] at small'
      simp only [List.length_append, Wire.octets_length, frame_length, Wire.octetsLength]
        at small small'
      obtain ⟨rfl, rfl⟩ := Wire.octets_append_inj (by omega) (by omega) form
      exact ih (by omega) below
    · cases flat
  | @threshold w needed subs flags c bytes parts assembled written inner ih =>
    have long := (assembled.revealing flags rfl).length_eq
    obtain ⟨list, shows, rfl⟩ := entries_eq_ok.1 written
    have count : list.length = subs.length := by
      rw [shows.length_eq, List.length_zip, long, Nat.min_self]
    have form : Threshold.header needed subs.length ++ list.flatMap Entry.bytes =
        listing needed list := by rw [listing, count]
    rw [form] at lists small
    rcases lists.of_frame with ⟨_, rfl⟩ | ⟨compound, _⟩ | ⟨_, _, _, _, _, same, mem, below⟩
    · exact inOrder_of_shows assembled inner shows small
    · cases compound
    · obtain ⟨rfl, rfl⟩ := listing_inj same small
      obtain ⟨⟨sub, flag⟩, revealed, first⟩ := exists_of_mem_left shows mem
      cases first with
      | revealed made =>
        obtain ⟨shown, paid, rfl⟩ := binary_eq_ok.1 made
        exact ih sub shown revealed paid (length_lt_of_shows shows small revealed paid) below
  | _ =>
    rcases lists.of_frame with ⟨flat, _⟩ | ⟨flat, _⟩ | ⟨flat, _⟩
    · cases flat
    · cases flat
    · cases flat

theorem rewritten_of_small {levels type : Nat} {payload : Bytes} {f : Fulfillment}
    (ok : ofPayload levels type payload = .ok f) (small : payload.length < 2 ^ 64) :
    ∃ shown, f.payload = .ok shown ∧ shown.length = payload.length ∧
      ofPayload levels type shown = .ok f := by
  have kept := ofPayload_faithful _ _ _ _ ok
  obtain ⟨shown, paid, length⟩ := kept.again
  have shallow : f.shownDepth < levels := by
    have pos := (Nests.root f).lt_levels ok
    have le : f.shownDepth ≤ levels - 1 := carries_le_iff.1 fun depth g carries =>
      Nat.le_sub_one_of_lt (carries.nests.lt_levels ok)
    omega
  refine ⟨shown, paid, length, ?_⟩
  rw [← kept.type_eq, (kept.wellFormed.written paid).readBack (by omega), outcome, if_pos shallow,
    ofPayload_received ok]

theorem rewritten_of_ofPayload {levels type : Nat} {payload : Bytes} {f : Fulfillment}
    (ok : ofPayload levels type payload = .ok f) :
    ∃ shown, f.payload = .ok shown ∧ ofPayload levels type shown = .ok f := by
  -- Only a preimage can be longer than what fits in a frame, and what a prefix stands in front
  -- of always fits.
  cases levels with
  | zero => cases ok
  | succ levels =>
    obtain ⟨rfl, parsed⟩ := ofPayload_ok ok
    cases parsed with
    | @prefixed lead binary sub c short framed made =>
      obtain ⟨inner, rfl, small, below⟩ := readFrame_ok (ofPayload_faithful levels) framed
      obtain ⟨shown, paid, length, again⟩ := rewritten_of_small below small
      refine ⟨_, payload_prefixed_eq_ok.2 ⟨shown, paid, rfl⟩, ?_⟩
      have read := @ofPrefixPayload_frame (ofPayload levels) lead sub.type shown short (by omega)
      rw [bind_of_ok again, made] at read
      rw [ofPayload_succ]
      exact read
    | threshold fits =>
      obtain ⟨shown, paid, _, again⟩ :=
        rewritten_of_small ok (Nat.lt_of_le_of_lt fits (by decide))
      exact ⟨shown, paid, again⟩
    | _ => exact ⟨_, by simp only [Fulfillment.payload], ok⟩

theorem relinked_of_ofUri {text : String} {f : Fulfillment} (ok : ofUri text = .ok f) :
    ∃ again, f.uri = .ok again ∧ ofUri again = .ok f := by
  unfold ofUri at ok
  split at ok
  · cases ok
  · next parts _ =>
    have type := (ofPayload_faithful _ _ _ _ ok).type_eq
    obtain ⟨shown, paid, root⟩ := rewritten_of_ofPayload ok
    rw [← type] at root
    exact ⟨_, by rw [uri, bind_of_ok paid]; rfl, ofUri_format.trans root⟩

/-- What is read can be written, in as many bytes, and is then read as the same. The bytes are the
same if and only if every threshold in them lists its entries in canonical order. -/
theorem reencoded_of_ofBinary {bytes : Bytes} {f : Fulfillment} (read : ofBinary bytes = .ok f) :
    (∀ depth g, f.Nests depth g → depth ≤ maxNesting) ∧ f.canReveal = true ∧
      ∃ again, f.binary = .ok again ∧ again.length = bytes.length ∧ ofBinary again = .ok f ∧
        (again = bytes ↔ ∀ payload, Lists bytes payload → InOrder payload) := by
  obtain ⟨payload, rfl, small, root⟩ := readFrame_ok (ofPayload_faithful (maxNesting + 1)) read
  have kept := ofPayload_faithful _ _ _ _ root
  obtain ⟨shown, paid, length⟩ := kept.again
  have written := kept.wellFormed.written paid
  have nested depth g (nests : f.Nests depth g) : depth ≤ maxNesting :=
    Nat.le_of_lt_succ (nests.lt_levels root)
  have shallow : f.shownDepth < maxNesting + 1 :=
    Nat.lt_succ_of_le (carries_le_iff.1 fun depth g carries => nested depth g carries.nests)
  have encoded : f.binary = .ok (frame f.type shown) := binary_eq_ok.2 ⟨shown, paid, rfl⟩
  refine ⟨nested, written.canReveal, _, encoded, ?_, ?_, ?_⟩
  · rw [frame_length, frame_length, length]
  · rw [ofBinary_frame (by omega), ofRoot, written.readBack (by omega), outcome, if_pos shallow,
      ofPayload_received root]
  · constructor
    · intro same payload lists
      rw [← same] at lists
      exact written.inOrder (by omega) lists
    · intro ordered
      rw [binary_of_inOrder read ordered] at encoded
      exact (Except.ok.inj encoded).symm

def sampleEntries : List Entry :=
  [.hidden Weight.one (preimage Weight.one []).condition,
    .revealed sampleWeight (frame .preimage [1])]

theorem readEntries_sampleEntries :
    readEntries (ofPayload maxNesting) 2 (sampleEntries.flatMap Entry.bytes) =
      .ok (sampleParts.reverse.zip [false, true], []) := by
  have head := @readEntry_hidden (ofPayload maxNesting) (preimage Weight.one []).commitment
    (simpleCondition_consistent _ _ _)
    (Entry.revealed sampleWeight (frame .preimage [1])).bytes
  have tail := @readEntry_revealed (ofPayload maxNesting) (preimage sampleWeight [1]).commitment
    .preimage [1] (by decide) []
  rw [List.append_nil] at tail
  rw [readEntries]
  refine (step_bind head _).trans ?_
  rw [readEntries, step_bind (step_bind tail _)]
  rfl

theorem ofEntries_sampleParts {c : Condition}
    (conditioned : Threshold.condition 2 (sampleParts.map commitment) = .ok c) :
    ofEntries 2 (sampleParts.reverse.zip [false, true]) =
      .ok (.threshold Weight.one 2 sampleParts (.revealed [true, false]) c) := by
  have turned : ordered (sampleParts.reverse.zip [false, true]) =
      sampleParts.zip [true, false] := by
    have lighter : (withheld (preimage Weight.one []).commitment).commitment.precedes
        (preimage ⟨2, by decide⟩ [1]).commitment = false := rfl
    simp [ordered, Threshold.arranged, Threshold.arrange, List.mergeSort, sampleParts, lighter]
  have shape : Threshold.checkShape 2 (sampleParts.reverse.zip [false, true]).length = .ok () := rfl
  rw [ofEntries_eq, turned, bind_of_ok shape]
  dsimp only
  rw [if_neg (by decide)]
  exact bind_of_ok conditioned _

theorem length_listing_sampleEntries :
    (listing 2 sampleEntries).length ≤ Threshold.maxPayload := by decide +kernel

theorem ofThresholdPayload_sampleEntries : ∃ c,
    ofThresholdPayload (ofPayload maxNesting) (listing 2 sampleEntries) =
      .ok (.threshold Weight.one 2 sampleParts (.revealed [true, false]) c) := by
  obtain ⟨c, conditioned⟩ := condition_sampleParts
  have taken := @readThreshold_header (ofPayload maxNesting) 2 2 rfl
    (sampleEntries.flatMap Entry.bytes)
  rw [readEntries_sampleEntries] at taken
  have read : whole (readThreshold (ofPayload maxNesting)) (listing 2 sampleEntries) =
      .ok (2, sampleParts.reverse.zip [false, true]) := whole_of_ok taken
  refine ⟨c, ?_⟩
  rw [ofThresholdPayload, if_neg (Nat.not_lt.2 length_listing_sampleEntries)]
  exact (bind_of_ok read _).trans (ofEntries_sampleParts conditioned)

theorem ofBinary_sampleEntries : ∃ c, ofBinary (frame .threshold (listing 2 sampleEntries)) =
    .ok (.threshold Weight.one 2 sampleParts (.revealed [true, false]) c) := by
  obtain ⟨c, read⟩ := ofThresholdPayload_sampleEntries
  have short : (listing 2 sampleEntries).length < 2 ^ 64 :=
    Nat.lt_of_le_of_lt length_listing_sampleEntries (by decide)
  refine ⟨c, ?_⟩
  rw [ofBinary, whole_readFrame .threshold short, ofRoot, ofPayload_succ]
  exact read

theorem binary_sampleParts (c : Condition) :
    (threshold Weight.one 2 sampleParts (.revealed [true, false]) c).binary =
      .ok (frame .threshold (listing 2 sampleEntries.reverse)) := by
  have first : (preimage sampleWeight [1]).binary = .ok (frame .preimage [1]) :=
    binary_eq_ok.2 ⟨[1], by simp only [payload], rfl⟩
  have written : entries sampleParts [true, false] =
      .ok (sampleEntries.reverse.flatMap Entry.bytes) :=
    entries_eq_ok.2 ⟨_, .cons (.revealed first) (.cons (.hidden _) .nil), rfl⟩
  exact binary_eq_ok.2 ⟨_, payload_revealed_eq_ok.2 ⟨_, written, rfl⟩, rfl⟩

theorem reencoded_of_ofBinary_sample : ∃ (bytes : Bytes) (f : Fulfillment),
    ofBinary bytes = .ok f ∧ f.binary ≠ .ok bytes ∧
    (∀ depth g, f.Nests depth g → depth ≤ maxNesting) ∧ f.canReveal = true ∧
      ∃ again, f.binary = .ok again ∧ again.length = bytes.length ∧ ofBinary again = .ok f ∧
        (again = bytes ↔ ∀ payload, Lists bytes payload → InOrder payload) := by
  obtain ⟨c, read⟩ := ofBinary_sampleEntries
  refine ⟨_, _, read, ?_, reencoded_of_ofBinary read⟩
  intro same
  rw [binary_sampleParts] at same
  obtain ⟨_, payloads⟩ := frame_injective (Except.ok.inj same)
  obtain ⟨_, reversed⟩ := listing_inj payloads (by decide +kernel)
  cases reversed

end CryptoConditions.Fulfillment
