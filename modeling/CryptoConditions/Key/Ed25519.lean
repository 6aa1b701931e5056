import CryptoConditions.Hash.Sha512
import CryptoConditions.Key.Modular

/-! Ed25519: signatures on the curve -x² + y² = 1 + d x² y² over the integers
modulo 2²⁵⁵ - 19. A key is 32 bytes that name a point, a signature the 32 bytes
of a point and the 32 bytes of a number below the order of the base point. -/

namespace CryptoConditions.Ed25519

def prime : Nat := 2 ^ 255 - 19

def order : Nat := 2 ^ 252 + 27742317777372353535851937790883648493

/-- The coefficient d of the curve. -/
def coefficient : Nat :=
  37095705934669439343138083508754565189542113879843219016388785533085940283555

def rootOfMinusOne : Nat :=
  19681161376707505956807079304988542015446066515923890162744021073123829784752

def littleEndian (bytes : Bytes) : Nat :=
  ofBigEndian bytes.reverse

/-- The 32 low bytes of a number, least significant first. -/
def octets (n : Nat) : Octets 32 where
  bytes := (bigEndian 32 n).reverse
  length_eq := by simp

def sub (a b : Nat) : Nat :=
  (a + (prime - b % prime)) % prime

def inverse (a : Nat) : Nat :=
  Modular.pow a (prime - 2) prime

/-- A number whose square is `a`, if there is one. -/
def squareRoot? (a : Nat) : Option Nat :=
  let root := Modular.pow a ((prime + 3) / 8) prime
  let square := root * root % prime
  if square = a % prime then some root
  else if square = sub 0 a then some (root * rootOfMinusOne % prime)
  else none

/-- A point as x = X/Z and y = Y/Z with XY = ZT. -/
structure Point where
  x : Nat
  y : Nat
  z : Nat
  t : Nat

namespace Point

def zero : Point := ⟨0, 1, 1, 0⟩

def base : Point where
  x := 15112221349535400772501151409588531511454012693041857206046113283949847762202
  y := 46316835694926478169428394003475163141307993866256225615783033603165251855960
  z := 1
  t := 46827403850823179245072216630277197565144205554125654976674165829533817101731

/-- One formula for every pair of points of the curve. -/
def add (p q : Point) : Point :=
  let a := sub p.y p.x * sub q.y q.x % prime
  let b := (p.y + p.x) * (q.y + q.x) % prime
  let c := p.t * q.t % prime * (2 * coefficient) % prime
  let d := p.z * q.z * 2 % prime
  let e := sub b a
  let f := sub d c
  let g := d + c
  let h := b + a
  ⟨e * f % prime, g * h % prime, f * g % prime, e * h % prime⟩

def neg (p : Point) : Point :=
  ⟨sub 0 p.x, p.y, p.z, sub 0 p.t⟩

def mul (n : Nat) (p : Point) : Point :=
  if n = 0 then zero
  else
    let rest := mul (n / 2) (p.add p)
    if n % 2 = 1 then p.add rest else rest
termination_by n
decreasing_by exact Nat.div_lt_self (by omega) (by decide)

/-- The second coordinate, with the parity of the first in the highest bit. -/
def encode (p : Point) : Octets 32 :=
  let scale := inverse p.z
  let x := p.x * scale % prime
  let y := p.y * scale % prime
  octets (y + 2 ^ 255 * (x % 2))

/-- The point that 32 bytes name. The second coordinate need not be reduced, and a first
coordinate of zero goes with either parity. -/
def decode? (bytes : Octets 32) : Option Point := do
  let n := littleEndian bytes.bytes
  let y := n % 2 ^ 255 % prime
  let square := y * y % prime
  let root ← squareRoot? (sub square 1 * inverse (coefficient * square + 1) % prime)
  let x := if root % 2 = n / 2 ^ 255 then root else sub 0 root
  return ⟨x, y, 1, x * y % prime⟩

end Point

/-- The bytes of a point. -/
structure PublicKey where
  octets : Octets 32
  valid : (Point.decode? octets).isSome
deriving DecidableEq

namespace PublicKey

def ofOctets? (octets : Octets 32) : Option PublicKey :=
  if valid : (Point.decode? octets).isSome then some ⟨octets, valid⟩ else none

theorem ofOctets?_octets (key : PublicKey) : ofOctets? key.octets = some key := by
  simp [ofOctets?, key.valid]

theorem octets_of_ofOctets? {octets : Octets 32} {key : PublicKey}
    (h : ofOctets? octets = some key) : key.octets = octets := by
  unfold ofOctets? at h
  split at h
  · cases h; rfl
  · cases h

end PublicKey

/-- The number that binds a signature to its first half, the key and the message. -/
def challenge (commitment key message : Bytes) : Nat :=
  littleEndian (sha512 (commitment ++ key ++ message)).bytes % order

/-- Whether a signature of 64 bytes is one of the message. The first half has to be the bytes of
the point that the second half and the key give; there is no cofactor. -/
def verify (key : PublicKey) (message signature : Bytes) : Bool :=
  let commitment := signature.take 32
  let response := littleEndian (signature.drop 32)
  signature.length == 64 && decide (response < order) &&
    match Point.decode? key.octets with
    | none => false
    | some point =>
      let k := challenge commitment key.octets.bytes message
      ((Point.base.mul response).add (point.neg.mul k)).encode.bytes == commitment

/-- What a seed stands for: a multiple of the base point and a key for nonces. -/
structure Secret where
  scalar : Nat
  nonceKey : Bytes

/-- The scalar is a multiple of eight with its highest bit at place 254. -/
def Secret.ofSeed (seed : Octets 32) : Secret :=
  let digest := (sha512 seed.bytes).bytes
  ⟨2 ^ 254 + littleEndian (digest.take 32) % 2 ^ 254 / 8 * 8, digest.drop 32⟩

def Secret.publicOctets (secret : Secret) : Octets 32 :=
  (Point.base.mul secret.scalar).encode

/-- A seed with the public key that it gives. -/
structure KeyPair where
  seed : Octets 32
  publicKey : PublicKey
  publicKey_octets : publicKey.octets = (Secret.ofSeed seed).publicOctets
deriving DecidableEq

namespace KeyPair

def ofSeed? (seed : Octets 32) : Option KeyPair :=
  if valid : (Point.decode? (Secret.ofSeed seed).publicOctets).isSome then
    some ⟨seed, ⟨_, valid⟩, rfl⟩
  else none

theorem ofSeed?_seed (pair : KeyPair) : ofSeed? pair.seed = some pair := by
  obtain ⟨seed, ⟨octets, valid⟩, h⟩ := pair
  cases h
  exact dif_pos valid

theorem seed_of_ofSeed? {seed : Octets 32} {pair : KeyPair}
    (h : ofSeed? seed = some pair) : pair.seed = seed := by
  unfold ofSeed? at h
  split at h
  · cases h; rfl
  · cases h

/-- The signature of a message; it depends on seed and message alone. -/
def sign (pair : KeyPair) (message : Bytes) : Octets 64 :=
  let secret := Secret.ofSeed pair.seed
  let nonce := littleEndian (sha512 (secret.nonceKey ++ message)).bytes % order
  let commitment := (Point.base.mul nonce).encode
  let k := challenge commitment.bytes pair.publicKey.octets.bytes message
  let response := octets ((nonce + k * secret.scalar) % order)
  ⟨commitment.bytes ++ response.bytes, by simp [commitment.length_eq, response.length_eq]⟩

end KeyPair

end CryptoConditions.Ed25519
