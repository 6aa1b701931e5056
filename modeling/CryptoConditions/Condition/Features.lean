import CryptoConditions.Text.Numeral

/-! Types of conditions, and the features a verifier needs to check one. -/

namespace CryptoConditions

/-- A set of registered features, one bit each. -/
structure Features where
  bits : BitVec 7
deriving DecidableEq

namespace Features

def sha256 : Features := ⟨0x01⟩
def preimage : Features := ⟨0x02⟩
def prefixed : Features := ⟨0x04⟩
def threshold : Features := ⟨0x08⟩
def rsaPss : Features := ⟨0x10⟩
def ed25519 : Features := ⟨0x20⟩
def timeout : Features := ⟨0x40⟩

def toNat (f : Features) : Nat := f.bits.toNat

/-- A number with a bit that is not registered is no set of features. -/
def ofNat? (n : Nat) : Option Features :=
  if n < 128 then some ⟨BitVec.ofNat 7 n⟩ else none

def union (f g : Features) : Features := ⟨f.bits ||| g.bits⟩

def contains (f g : Features) : Bool := f.bits &&& g.bits == g.bits

/-- Hexadecimal text with its base. -/
def hex (f : Features) : String := "0x" ++ Numeral.hex f.toNat

theorem toNat_lt (f : Features) : f.toNat < 128 := f.bits.isLt

theorem ofNat?_toNat (f : Features) : ofNat? f.toNat = some f := by
  rw [ofNat?, if_pos f.toNat_lt, toNat, BitVec.ofNat_toNat, BitVec.setWidth_eq]

theorem toNat_of_ofNat? {n : Nat} {f : Features} (h : ofNat? n = some f) : f.toNat = n := by
  unfold ofNat? at h
  split at h
  · next small =>
    cases h
    exact Nat.mod_eq_of_lt small
  · cases h

end Features

/-- How a condition is satisfied. -/
inductive ConditionType where
  | preimage
  | prefixed
  | threshold
  | rsa
  | ed25519
  | timeout
deriving DecidableEq

namespace ConditionType

def id : ConditionType → Nat
  | preimage => 0
  | prefixed => 1
  | threshold => 2
  | rsa => 3
  | ed25519 => 4
  | timeout => 99

def ofId? : Nat → Option ConditionType
  | 0 => some preimage
  | 1 => some prefixed
  | 2 => some threshold
  | 3 => some rsa
  | 4 => some ed25519
  | 99 => some timeout
  | _ => none

/-- Features that every condition of the type needs. -/
def features : ConditionType → Features
  | preimage => Features.sha256.union Features.preimage
  | prefixed => Features.sha256.union Features.prefixed
  | threshold => Features.sha256.union Features.threshold
  | rsa => Features.sha256.union Features.rsaPss
  | ed25519 => Features.ed25519
  | timeout => Features.sha256.union Features.timeout

/-- Whether conditions of the type are built from other conditions. -/
def isCompound : ConditionType → Bool
  | prefixed | threshold => true
  | _ => false

def name : ConditionType → String
  | preimage => "preimage-sha-256"
  | prefixed => "prefix-sha-256"
  | threshold => "threshold-sha-256"
  | rsa => "rsa-sha-256"
  | ed25519 => "ed25519"
  | timeout => "timeout-sha-256"

theorem ofId?_id (t : ConditionType) : ofId? t.id = some t := by
  cases t <;> rfl

theorem id_of_ofId? {n : Nat} {t : ConditionType} (h : ofId? n = some t) : t.id = n := by
  unfold ofId? at h
  split at h <;> cases h <;> rfl

end ConditionType

end CryptoConditions
