import CryptoConditions.Condition.Error
import CryptoConditions.Threshold.Buckets

/-! The greatest total length of entries over all choices of the entries to
reveal whose weights reach a threshold. -/

namespace CryptoConditions.Threshold

/-- The length of an entry, revealed and hidden, and its weight. -/
structure Extent where
  weight : Nat
  revealed : Nat
  hidden : Nat
deriving DecidableEq

def maxSums : Nat := 4096

/-- A size that fits 64 bits. -/
def checkSize (size : Nat) : Except ConditionError Nat :=
  if size < 2 ^ 64 then .ok size else .error .sizeOverflow

/-- Greatest lengths with one more entry. -/
def extend (needed : Nat) (buckets : Buckets Nat) (entry : Extent) :
    Except ConditionError (Buckets Nat) :=
  let next := Buckets.merge max (buckets.map (· + entry.hidden))
    (Buckets.raise max needed entry.weight (buckets.map (· + entry.revealed)))
  if next.any fun bucket => 2 ^ 64 ≤ bucket.2 then .error .sizeOverflow
  else if maxSums < next.length then .error (.fulfillment (.tooManySums maxSums))
  else .ok next

/-- Nothing, if all entries together do not reach the threshold. -/
def largest? (needed : Nat) (entries : List Extent) : Except ConditionError (Option Nat) := do
  let buckets ← entries.foldlM (extend needed) [(0, 0)]
  return buckets.lookup needed

end CryptoConditions.Threshold
