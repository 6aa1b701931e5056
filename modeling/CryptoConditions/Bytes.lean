/-! Byte strings, fixed-width byte strings and big-endian numbers.
A byte string is a list, so that everything read from one or written to one
can be reasoned about by recursion on it. -/

namespace CryptoConditions

-- Powers and zeros of numbers are those of the core library, whatever another one brings.
@[default_instance 20000]
instance (priority := 2000) powNat : Pow Nat Nat := instPowNat

@[default_instance 15000]
instance (priority := 2000) powInt : Pow Int Nat := instPowNat

instance (priority := 2000) zeroNat : Zero Nat := Zero.ofOfNat0

abbrev Bytes := List UInt8

/-- Exactly `n` bytes. -/
structure Octets (n : Nat) where
  bytes : Bytes
  length_eq : bytes.length = n
deriving DecidableEq

namespace Octets

@[ext] theorem ext {n : Nat} {a b : Octets n} (h : a.bytes = b.bytes) : a = b := by
  cases a; cases b; cases h; rfl

/-- The bytes as a fixed-width value, if there are `n` of them. -/
def ofBytes? (n : Nat) (bytes : Bytes) : Option (Octets n) :=
  if h : bytes.length = n then some ⟨bytes, h⟩ else none

theorem ofBytes?_bytes {n : Nat} (a : Octets n) : ofBytes? n a.bytes = some a := by
  simp [ofBytes?, a.length_eq]

theorem bytes_of_ofBytes? {n : Nat} {bytes : Bytes} {a : Octets n}
    (h : ofBytes? n bytes = some a) : a.bytes = bytes := by
  unfold ofBytes? at h
  split at h
  · cases h; rfl
  · cases h

end Octets

/-- The `width` low bytes of a number, most significant first. -/
def bigEndian : (width : Nat) → Nat → Bytes
  | 0, _ => []
  | width + 1, n => UInt8.ofNat (n >>> (8 * width)) :: bigEndian width n

@[simp] theorem bigEndian_length (width n : Nat) : (bigEndian width n).length = width := by
  induction width with
  | zero => rfl
  | succ width ih => simp [bigEndian, ih]

/-- The number that bytes spell, most significant first. -/
def ofBigEndian (bytes : Bytes) : Nat :=
  bytes.foldl (fun value byte => value * 256 + byte.toNat) 0

/-- How many bytes a number needs; zero needs one. -/
def byteWidth (n : Nat) : Nat :=
  n.log2 / 8 + 1

/-- The shortest big-endian form; zero is one zero byte. -/
def minimalBigEndian (n : Nat) : Bytes :=
  bigEndian (byteWidth n) n

@[simp] theorem minimalBigEndian_length (n : Nat) :
    (minimalBigEndian n).length = byteWidth n := by
  simp [minimalBigEndian]

/-- How many bits a number needs; zero needs none. -/
def bitLength (n : Nat) : Nat :=
  if n = 0 then 0 else n.log2 + 1

/-- The UTF-8 form of a text. -/
def utf8 (text : String) : Bytes :=
  text.toList.flatMap String.utf8EncodeChar

end CryptoConditions
