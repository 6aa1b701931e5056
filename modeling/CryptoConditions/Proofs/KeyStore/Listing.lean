import CryptoConditions.Proofs.KeyStore.Saved
import Mathlib.Data.Prod.Lex
import Mathlib.Data.String.Basic
import Mathlib.Order.WithBot

/-! File names of keys, and the order of a list. A list looks at every file that a key
has, and sorts pairs of different ranks strictly, so that it does not matter in which order they
were read. -/

namespace CryptoConditions

namespace PublicKey

def fileName (key : PublicKey) : String :=
  key.fingerprint ++ ".json"

theorem fingerprint_length (key : PublicKey) : key.fingerprint.toList.length = 32 := by
  have length := Hex.length_of_decodeChars?
    (Hex.decodeChars?_encodeChars ((sha256 key.bytes).bytes.take 16))
  rw [List.length_take, (sha256 key.bytes).length_eq] at length
  rw [fingerprint, Hex.encode, String.toList_ofList, ← length]
  rfl

theorem toList_fileName (key : PublicKey) :
    key.fileName.toList = key.fingerprint.toList ++ ".json".toList :=
  String.toList_append

theorem fileName_length (key : PublicKey) : key.fileName.toList.length = 37 := by
  rw [toList_fileName, List.length_append, fingerprint_length]
  rfl

theorem fileName_ne (key : PublicKey) {text : String} (short : text.toList.length < 37) :
    key.fileName ≠ text := by
  rintro rfl
  rw [fileName_length] at short
  exact Nat.lt_irrefl _ short

theorem fileName_inj {a b : PublicKey} (same : a.fileName = b.fileName) :
    a.fingerprint = b.fingerprint := by
  have chars := congrArg String.toList same
  rw [toList_fileName, toList_fileName] at chars
  exact String.toList_inj.1 (List.append_cancel_right chars)

end PublicKey

namespace StoredKey

/-- What a list goes by: the label, none before all others, then the fingerprint. -/
def rank (key : StoredKey) : WithBot String ×ₗ String :=
  toLex (key.label, key.fingerprint)

theorem precedes_eq (a b : StoredKey) : a.precedes b = decide (a.rank ≤ b.rank) := by
  rw [Bool.eq_iff_iff, decide_eq_true_iff, rank, rank, Prod.Lex.toLex_le_toLex]
  unfold precedes
  cases first : a.label with
  | none =>
    cases second : b.label with
    | none => simp [WithBot.none_eq_bot]
    | some y => simp [WithBot.none_eq_bot, WithBot.some_eq_coe]
  | some x =>
    cases second : b.label with
    | none => simp [WithBot.none_eq_bot, WithBot.some_eq_coe]
    | some y => simp [WithBot.some_eq_coe]

theorem mergeSort_precedes {keys : List StoredKey} (distinct : keys.Nodup)
    (apart : ∀ a ∈ keys, ∀ b ∈ keys, a.rank = b.rank → a = b) :
    (keys.mergeSort precedes).Pairwise fun a b => a.rank < b.rank := by
  have perm := keys.mergeSort_perm precedes
  have sorted : (keys.mergeSort precedes).Pairwise fun a b => a.precedes b = true := by
    refine List.pairwise_mergeSort (fun a b c first second => ?_) (fun a b => ?_) keys
    · rw [precedes_eq, decide_eq_true_iff] at *
      exact first.trans second
    · rw [precedes_eq, precedes_eq, ← Bool.decide_or, decide_eq_true_iff]
      exact le_total _ _
  have different : (keys.mergeSort precedes).Nodup := perm.nodup_iff.2 distinct
  refine (sorted.and different).imp_of_mem fun {a b} left right ⟨order, other⟩ => ?_
  rw [precedes_eq, decide_eq_true_iff] at order
  exact lt_of_le_of_ne order fun same =>
    other (apart a (perm.mem_iff.1 left) b (perm.mem_iff.1 right) same)

theorem eq_of_ranked {keys others : List StoredKey}
    (left : keys.Pairwise fun a b => a.rank < b.rank)
    (right : others.Pairwise fun a b => a.rank < b.rank)
    (same : ∀ key, key ∈ keys ↔ key ∈ others) : keys = others := by
  have nodup {list : List StoredKey} (ranked : list.Pairwise fun a b => a.rank < b.rank) :
      list.Nodup := by
    refine ranked.imp ?_
    rintro a _ less rfl
    exact lt_irrefl _ less
  have perm := (List.perm_ext_iff_of_nodup (nodup left) (nodup right)).2 same
  exact perm.eq_of_pairwise (fun a b _ _ less more => absurd less (lt_asymm more)) left right

end StoredKey

namespace KeyStore

theorem isKeyFile_fileName (key : PublicKey) : isKeyFile key.fileName = true := by
  have ends : key.fileName.endsWith ".json" = true := by
    rw [← String.endsWith_toSlice, String.Slice.endsWith_string_iff, String.copy_toSlice]
    exact ⟨_, key.toList_fileName.symm⟩
  have other : key.fileName ≠ ".json" := key.fileName_ne (by decide)
  rw [isKeyFile, ends, Bool.true_and, bne_iff_ne]
  exact other

theorem isDirectory_path {store : KeyStore} {files : Files}
    (free : ∀ key, store.path key ∉ files.directories) (key : PublicKey) :
    files.isDirectory (store.path key) = false := by
  have inside : (store.path key).isAbove = false := by
    have other : key.fileName ≠ ".." := key.fileName_ne (by decide)
    have path : store.path key = store.directory ++ [key.fileName] := rfl
    rw [Path.isAbove, path, List.all_append, List.all_cons, beq_false_of_ne other, Bool.false_and,
      Bool.and_false]
  rw [Files.isDirectory, inside, Bool.false_or, List.contains_eq_mem, decide_eq_false (free key)]

end KeyStore

end CryptoConditions
