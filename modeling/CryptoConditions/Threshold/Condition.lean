import CryptoConditions.Condition.Basic
import CryptoConditions.Threshold.Size

/-! The condition of a threshold: it depends on the conditions and weights of its
parts, in their canonical order, and on nothing else. -/

namespace CryptoConditions

/-- Canonical order: greater weights first, then binary forms in rising order. -/
def Commitment.precedes (a b : Commitment) : Bool :=
  decide (b.weight.val < a.weight.val) ||
    (a.weight.val == b.weight.val && decide (a.condition.binary ≤ b.condition.binary))

namespace Threshold

def maxParts : Nat := 32

def maxPayload : Nat := 4095

/-- A threshold is not zero and has parts, but not too many. -/
def checkShape (needed : UInt32) (count : Nat) : Except ConditionError Unit :=
  if needed = 0 then .error (.fulfillment .zeroThreshold)
  else if count = 0 then .error (.fulfillment .noSubfulfillments)
  else if maxParts < count then .error (.tooManySubfulfillments count)
  else .ok ()

/-- What comes before the entries, in payload and fingerprint alike. -/
def header (needed : UInt32) (count : Nat) : Bytes :=
  bigEndian 4 needed.toNat ++ Wire.uint count

def headerLength (count : Nat) : Nat :=
  4 + Wire.uintLength count

theorem header_length (needed : UInt32) (count : Nat) :
    (header needed count).length = headerLength count := by
  simp [header, headerLength]

/-- The bytes that a threshold's hash is taken of. -/
def fingerprint (needed : UInt32) (parts : List Commitment) : Bytes :=
  header needed parts.length ++ parts.flatMap fun part =>
    Wire.uint part.weight.toNat ++ part.condition.binary

/-- The payload entry of a part that is only committed to. -/
def hiddenEntry (part : Commitment) : Bytes :=
  Wire.uint part.weight.toNat ++ Wire.octets [] ++ Wire.octets part.condition.binary

/-- The payload entry of a part that is shown in its binary form. -/
def revealedEntry (part : Commitment) (binary : Bytes) : Bytes :=
  Wire.uint part.weight.toNat ++ Wire.octets binary ++ Wire.octets []

def hiddenLength (part : Commitment) : Nat :=
  Wire.uintLength part.weight.toNat + 1 + Wire.octetsLength part.condition.binaryLength

/-- The length of a revealed entry whose binary form is so long. -/
def revealedLength (part : Commitment) (length : Nat) : Nat :=
  Wire.uintLength part.weight.toNat + Wire.octetsLength length + 1

theorem hiddenEntry_length (part : Commitment) :
    (hiddenEntry part).length = hiddenLength part := by
  simp [hiddenEntry, hiddenLength, Wire.octetsLength, Wire.lengthWidth,
    Condition.binary_length, Nat.add_assoc]

theorem revealedEntry_length (part : Commitment) (binary : Bytes) :
    (revealedEntry part binary).length = revealedLength part binary.length := by
  simp [revealedEntry, revealedLength, Wire.octetsLength, Wire.lengthWidth, Nat.add_assoc]

/-- The lengths of a part whose payload is as long as its condition lets it be. -/
def extent (part : Commitment) : Except ConditionError Extent := do
  let revealed ← checkSize
    (revealedLength part (2 + Wire.octetsLength part.condition.size.toNat))
  return ⟨part.weight.toNat, revealed, hiddenLength part⟩

def totalWeight (parts : List Commitment) : Nat :=
  (parts.map fun part => part.weight.toNat).sum

/-- A bound on every payload that reaches the threshold. -/
def size (needed : UInt32) (parts : List Commitment) : Except ConditionError Nat := do
  match ← largest? needed.toNat (← parts.mapM extent) with
  | none => throw (.insufficientThreshold needed.toNat (totalWeight parts))
  | some body => checkSize (headerLength parts.length + body)

def features (parts : List Commitment) : Features :=
  parts.foldl (fun found part => found.union part.condition.features)
    ConditionType.threshold.features

/-- The condition of parts in canonical order. -/
def condition (needed : UInt32) (parts : List Commitment) : Except ConditionError Condition := do
  let size ← size needed parts
  return ⟨.threshold, features parts, sha256 (fingerprint needed parts), UInt64.ofNat size⟩

end Threshold

end CryptoConditions
