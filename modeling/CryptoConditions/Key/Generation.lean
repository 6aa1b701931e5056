import CryptoConditions.Key.Rsa

/-! RSA keys from a seed: two numbers stretched from it, each moved up to the
next prime. -/

namespace CryptoConditions.Rsa

/-- Product of the odd numbers below 2000. -/
def smallFactors : Nat :=
  (List.range 1000).foldl (fun product i => product * (2 * i + 1)) 1

def witnesses : List Nat :=
  [2, 3, 5, 7, 11, 13, 17, 19, 23, 29, 31, 37, 41, 43, 47, 53, 59, 61, 67, 71]

/-- Whether a large odd number can be a factor of a modulus: a prime, as far as the witnesses
tell, whose predecessor is prime to the public exponent. -/
def isFactor (n : Nat) : Bool :=
  Nat.gcd n smallFactors == 1 && Nat.gcd (n - 1) publicExponent == 1 &&
    Modular.passes n witnesses

/-- The first factor among `count` odd numbers from `n` on. -/
def nextFactor? : (count : Nat) → (n : Nat) → Option Nat
  | 0, _ => none
  | count + 1, n => if isFactor n then some n else nextFactor? count (n + 2)

/-- An odd number of `bits` bits that starts with two ones. -/
def candidate (bits : Nat) (seed : Bytes) : Nat :=
  let low := ofBigEndian (Pss.stretch seed ((bits + 7) / 8)) % 2 ^ (bits - 2)
  2 ^ (bits - 1) + 2 ^ (bits - 2) + low / 2 * 2 + 1

def factor? (bits : Nat) (seed : Bytes) : Option Nat :=
  nextFactor? (64 * bits) (candidate bits seed)

/-- A key with a modulus of `bits` bits. -/
def PrivateKey.generate (bits : Nat) (seed : Bytes) : Except KeyError PrivateKey :=
  if bits % 8 ≠ 0 ∨ bits < 8 * minLength ∨ 8 * maxLength < bits then
    .error (.unsupportedKeyType (bits / 8))
  else
    let numbers := do
      let p ← factor? (bits / 2) (0 :: seed)
      let q ← factor? (bits / 2) (1 :: seed)
      let d ← Modular.inverse? publicExponent ((p - 1) * (q - 1))
      if bitLength (p * q) = bits then some (p, q, d) else none
    match numbers with
    | none => .error (.rsa .internal)
    | some (p, q, d) => ofNumbers (p * q) publicExponent d p q

end CryptoConditions.Rsa
