import CryptoConditions.Proofs.Json.Received
import CryptoConditions.Proofs.Transaction.Covered
import CryptoConditions.Proofs.Transaction.Saved

/-! Transactions that are read from texts. What is asked of a document elsewhere holds of all of
them: documents that are signed alike are one, and without fractions a document is kept as it was
read. -/

namespace CryptoConditions.Transaction

open Json

variable {a b t : Transaction}

structure Received (t : Transaction) : Prop where
  asset : t.asset.Fits Number.Normal (maxDepth - 1)
  metadata : ∀ value ∈ t.metadata, value ≠ .null ∧ value.Fits Number.Normal (maxDepth - 1)
  details : ∀ o ∈ t.outputs, o.condition.details.toJson.depth + 4 ≤ maxDepth
  timestamp : t.timestamp.Valid

theorem received_of_decodeJson? {w : Written} {t : Transaction}
    (read : decodeJson? maxDepth w = some t) : t.Received := by
  simp only [maxDepth, decodeJson?, Option.bind_eq_bind, Option.bind_eq_some_iff] at read
  obtain ⟨_, _, read⟩ := read
  split at read
  · simp only [Option.bind_eq_some_iff, Option.pure_def] at read
    obtain ⟨_, _, _, _, _, _, asset, assetRead, metadata, metadataRead, _, _, outputs, outputsRead,
      timestamp, timeRead, same⟩ := read
    cases same
    refine ⟨?_, ?_, ?_, ?_⟩
    · obtain ⟨_, found⟩ := read_of_required assetRead
      exact fits_of_meaning? _ _ found
    · intro value given
      obtain ⟨w, shown, found⟩ := read_of_omissible metadataRead value given
      exact ⟨ne_null_of_meaning? shown found, fits_of_meaning? _ _ found⟩
    · intro o mem
      obtain ⟨_, list⟩ := read_of_required outputsRead
      obtain ⟨less, room, each⟩ := read_of_list list
      obtain ⟨_, found⟩ := each o mem
      have within := Output.depth_of_ofJson? found
      simp only [maxDepth]
      omega
    · obtain ⟨w, found⟩ := read_of_required timeRead
      obtain ⟨_, _, parsed⟩ := Option.bind_eq_some_iff.1 found
      exact Timestamp.valid_of_parse? parsed
  · cases read

theorem received_of_ofText {text : String} (read : ofText text = .ok t) : t.Received := by
  unfold ofText at read
  split at read
  · next found =>
    cases read
    obtain ⟨_, _, decoded⟩ := Option.bind_eq_some_iff.1 found
    exact received_of_decodeJson? decoded
  · cases read

namespace Received

theorem proper (received : t.Received) : t.Proper :=
  ⟨received.asset.numbers, fun value given => (received.metadata value given).2.numbers,
    received.timestamp⟩

theorem withoutNull_eq (received : t.Received) : t.withoutNull = t := by
  have kept : t.metadata.filter (· ≠ .null) = t.metadata :=
    filter_null_self fun value given => (received.metadata value given).1
  rw [withoutNull, kept]

end Received

theorem sameDocument_of_received (received : a.Received) (received' : b.Received)
    (same : a.signingBytes = b.signingBytes) : SameDocument a b := by
  obtain ⟨content, id⟩ := sameContent_of_signingBytes received.proper received'.proper same
  have metadata := content.metadata
  rw [received.withoutNull_eq, received'.withoutNull_eq] at metadata
  exact ⟨content.toSameBody, id, metadata⟩

theorem ofText_text_of_received (received : t.Received) (asset : t.asset.Numbers Number.IsInteger)
    (metadata : ∀ value ∈ t.metadata, value.Numbers Number.IsInteger) : ofText t.text = .ok t := by
  have storable : t.Storable :=
    ⟨⟨asset, received.asset.ordered, received.asset.depth⟩, fun value given =>
      ⟨metadata value given, (received.metadata value given).2.ordered,
        (received.metadata value given).2.depth⟩, received.details, received.timestamp⟩
  rw [ofText_text storable, received.withoutNull_eq]

end CryptoConditions.Transaction
