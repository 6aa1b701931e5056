import CryptoConditions.Bytes

/-! Self-delimiting encodings. A length below 128 is one byte; a longer one is
the number of its bytes with the high bit set, then its shortest big-endian
form. Octets are a length and that many bytes; an unsigned integer is the
octets of its shortest big-endian form. -/

namespace CryptoConditions.Wire

/-- Most bytes a length may take after the first. -/
def maxLengthBytes : Nat := 8

def lengthWidth (n : Nat) : Nat :=
  if n < 128 then 1 else 1 + byteWidth n

def octetsLength (n : Nat) : Nat :=
  lengthWidth n + n

def uintLength (n : Nat) : Nat :=
  octetsLength (byteWidth n)

def length (n : Nat) : Bytes :=
  if n < 128 then [UInt8.ofNat n]
  else UInt8.ofNat (128 + byteWidth n) :: minimalBigEndian n

def octets (bytes : Bytes) : Bytes :=
  length bytes.length ++ bytes

def uint (n : Nat) : Bytes :=
  octets (minimalBigEndian n)

@[simp] theorem length_length (n : Nat) : (length n).length = lengthWidth n := by
  unfold length lengthWidth
  split <;> simp [Nat.add_comm]

@[simp] theorem octets_length (bytes : Bytes) :
    (octets bytes).length = octetsLength bytes.length := by
  simp [octets, octetsLength]

@[simp] theorem uint_length (n : Nat) : (uint n).length = uintLength n := by
  simp [uint, uintLength]

end CryptoConditions.Wire
