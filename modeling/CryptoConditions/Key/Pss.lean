import CryptoConditions.Hash.Sha256

/-! Encoding of a digest for an RSA signature (PSS with SHA-256, MGF1 and a salt
of 32 bytes): a block of zeros, a one and the salt, masked by a stretched
fingerprint of digest and salt, then that fingerprint and a closing byte. -/

namespace CryptoConditions.Pss

/-- As many bytes as asked for from the digests of a seed with a running number. -/
def stretch (seed : Bytes) (length : Nat) : Bytes :=
  ((List.range ((length + 31) / 32)).flatMap fun i =>
    (sha256 (seed ++ bigEndian 4 i)).bytes).take length

/-- Bytes needed for `bits` bits. -/
def encodedLength (bits : Nat) : Nat :=
  (bits + 7) / 8

/-- The bytes with the first `count` bits of the first one set to zero. -/
def clearFirst (count : Nat) : Bytes → Bytes
  | [] => []
  | byte :: rest => UInt8.ofNat (byte.toNat % 2 ^ (8 - count)) :: rest

/-- A block with its mask put on or taken off, in `bits` bits less those that follow it. -/
def mask (bits : Nat) (fingerprint block : Bytes) : Bytes :=
  clearFirst (8 * encodedLength bits - bits)
    (List.zipWith (· ^^^ ·) block (stretch fingerprint block.length))

/-- The encoding in `bits` bits, if there is room for one. -/
def encode? (bits : Nat) (digest : Octets 32) (salt : Bytes) : Option Bytes :=
  if encodedLength bits < 66 then none
  else
    let fingerprint := (sha256 (List.replicate 8 0 ++ digest.bytes ++ salt)).bytes
    let block := List.replicate (encodedLength bits - 66) 0 ++ 1 :: salt
    some (mask bits fingerprint block ++ fingerprint ++ [0xbc])

/-- The salt of an encoding. -/
def salt (bits : Nat) (encoded : Bytes) : Bytes :=
  let length := encodedLength bits
  let fingerprint := (encoded.drop (length - 33)).take 32
  (mask bits fingerprint (encoded.take (length - 33))).drop (length - 65)

/-- Whether bytes are an encoding of the digest with some salt: then it is the one they hold. -/
def check (bits : Nat) (digest : Octets 32) (encoded : Bytes) : Bool :=
  encode? bits digest (salt bits encoded) == some encoded

end CryptoConditions.Pss
