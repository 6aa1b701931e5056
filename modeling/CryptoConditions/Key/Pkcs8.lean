import CryptoConditions.Key.Rsa
import CryptoConditions.Wire.Reader

/-! The PKCS#8 form of an RSA private key. Every element is a tag and octets, and
only the shortest form of a length or number is read. Fields may follow the key:
attributes, a public key in the second version, and others that have a number too. -/

namespace CryptoConditions.Pkcs8

inductive Tag where
  | integer
  | octetString
  | null
  | objectIdentifier
  | sequence
deriving DecidableEq

def Tag.byte : Tag → UInt8
  | integer => 0x02
  | octetString => 0x04
  | null => 0x05
  | objectIdentifier => 0x06
  | sequence => 0x30

def element (tag : Tag) (content : Bytes) : Bytes :=
  tag.byte :: Wire.octets content

/-- A number that is not negative: its first bit is zero. -/
def unsigned (n : Nat) : Bytes :=
  element .integer (match minimalBigEndian n with
    | [] => [0]
    | byte :: rest => if byte < 128 then byte :: rest else 0 :: byte :: rest)

/-- The algorithm of RSA keys, with no parameters. -/
def algorithm : Bytes :=
  element .sequence (element .objectIdentifier [0x2a, 0x86, 0x48, 0x86, 0xf7, 0x0d, 1, 1, 1] ++
    element .null [])

/-- A step over the bytes still to be read. -/
abbrev Read (α : Type) : Type := StateT Bytes Option α

/-- The content of the element in front, which has the given tag. -/
def readElement (tag : Tag) : Read Bytes
  | [] => none
  | byte :: rest =>
    if byte = tag.byte then
      match Wire.Reader.octets rest with
      | (.ok content, rest) => some (content, rest)
      | (.error _, _) => none
    else none

def unsignedValue? : Bytes → Option Nat
  | [] => none
  | [byte] => if byte < 128 then some byte.toNat else none
  | first :: second :: rest =>
    if first < 128 ∧ (first ≠ 0 ∨ 128 ≤ second) then
      some (ofBigEndian (first :: second :: rest))
    else none

def readUnsigned : Read Nat := do
  unsignedValue? (← readElement .integer)

def readUnsigneds : (count : Nat) → Read (List Nat)
  | 0 => return []
  | count + 1 => return (← readUnsigned) :: (← readUnsigneds count)

/-- What a step reads, if it leaves nothing. -/
def all? {α : Type} (read : Read α) (bytes : Bytes) : Option α :=
  match read bytes with
  | some (a, []) => some a
  | _ => none

/-- Modulus, exponents and factors of a key with two factors; the three numbers that follow only
speed up signing and are not looked at. -/
structure Numbers where
  n : Nat
  e : Nat
  d : Nat
  p : Nat
  q : Nat

def numbers? (bytes : Bytes) : Option Numbers := do
  match ← all? (readUnsigneds 9) (← all? (readElement .sequence) bytes) with
  | [0, n, e, d, p, q, _, _, _] => some ⟨n, e, d, p, q⟩
  | _ => none

/-- Whether a byte is a tag: a universal one in use, or one of another class whose number is
below 31. -/
def isTag (byte : UInt8) : Bool :=
  if byte < 0x40 then
    [0x01, 0x02, 0x03, 0x04, 0x05, 0x06, 0x09, 0x0a, 0x0c, 0x12, 0x13, 0x14, 0x15, 0x16, 0x17, 0x18,
      0x1a, 0x1e, 0x30, 0x31].contains byte
  else byte % 32 ≠ 31

/-- Whether a tag is that of a numbered field. Bit 6 tells a field made of elements from plain
octets. -/
def isField (byte : UInt8) : Bool :=
  0x80 ≤ byte && byte < 0xc0 && isTag byte

/-- The tag and the content of the element in front. -/
def readAny : Read (UInt8 × Bytes)
  | [] => none
  | byte :: rest =>
    if isTag byte then
      match Wire.Reader.octets rest with
      | (.ok content, rest) => some ((byte, content), rest)
      | (.error _, _) => none
    else none

/-- Passes over fields with the number 0, which are attributes; at most as many as the fuel. -/
def skipAttributes : (fuel : Nat) → Read Unit
  | 0 => return
  | fuel + 1 => do
    if (← get).head?.any fun byte => byte = 0x80 ∨ byte = 0xa0 then
      let _ ← readAny
      skipAttributes fuel

/-- Passes over a public key if one is there and tells so: plain octets with the number 1, the
first of which counts unused bits and is zero. -/
def skipPublicKey : Read Bool := do
  if (← get).head?.any fun byte => byte = 0x81 ∨ byte = 0xa1 then
    let (tag, content) ← readAny
    guard (tag = 0x81 ∧ content.head? = some 0)
    return true
  else return false

/-- Passes over all that is left: fields of one element each; at most as many as the fuel. -/
def skipFields : (fuel : Nat) → Read Unit
  | 0 => return
  | fuel + 1 => do
    unless (← get).isEmpty do
      let (tag, content) ← readAny
      guard (isField tag ∧ tag &&& 0x20 ≠ 0 ∧ (all? readAny content).isSome)
      skipFields fuel

/-- The octets that hold a key: they follow the version and the algorithm. Only the second version
has a public key, and it has to have one. -/
def readKey : Read Bytes := do
  let version ← readUnsigned
  let found ← readElement .sequence
  guard (element .sequence found = algorithm)
  let key ← readElement .octetString
  skipAttributes (← get).length
  let hasPublicKey ← skipPublicKey
  guard (version = if hasPublicKey then 1 else 0)
  skipFields (← get).length
  return key

def decode (bytes : Bytes) : Except KeyError Rsa.PrivateKey :=
  match (do numbers? (← all? readKey (← all? (readElement .sequence) bytes))) with
  | none => .error .invalidPrivateKey
  | some ⟨n, e, d, p, q⟩ => Rsa.PrivateKey.ofNumbers n e d p q

/-- Fails if the factors have a common divisor. -/
def encode (key : Rsa.PrivateKey) : Except KeyError Bytes :=
  match Modular.inverse? key.q key.p with
  | none => .error .invalidPrivateKey
  | some coefficient =>
    let numbers := [0, key.modulus.val, key.exponent, key.secret, key.p, key.q,
      key.secret % (key.p - 1), key.secret % (key.q - 1), coefficient]
    let content := element .sequence (numbers.flatMap unsigned)
    .ok (element .sequence (unsigned 0 ++ algorithm ++ element .octetString content))

end CryptoConditions.Pkcs8
