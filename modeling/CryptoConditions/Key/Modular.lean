import CryptoConditions.Bytes

/-! Arithmetic modulo a number: powers, inverses and a primality test. -/

namespace CryptoConditions.Modular

/-- Powers by repeated squaring. -/
def pow (base exponent modulus : Nat) : Nat :=
  if exponent = 0 then 1 % modulus
  else
    let rest := pow (base * base % modulus) (exponent / 2) modulus
    if exponent % 2 = 1 then base * rest % modulus else rest
termination_by exponent
decreasing_by exact Nat.div_lt_self (by omega) (by decide)

theorem pow_eq (base exponent modulus : Nat) :
    pow base exponent modulus = base ^ exponent % modulus := by
  fun_induction pow base exponent modulus with
  | case1 base => simp
  | case2 base exponent _ rest odd ih =>
    have split : exponent = 1 + 2 * (exponent / 2) := by omega
    conv => rhs; rw [split, Nat.pow_add, Nat.pow_mul]
    simp only [rest]
    rw [ih, ← Nat.pow_mod, Nat.mul_mod, Nat.mod_mod, ← Nat.mul_mod, Nat.pow_one, Nat.pow_two]
  | case3 base exponent _ rest even ih =>
    have split : exponent = 2 * (exponent / 2) := by omega
    conv => rhs; rw [split, Nat.pow_mul]
    simp only [rest]
    rw [ih, ← Nat.pow_mod, Nat.pow_two]

/-- Division steps of Euclid's algorithm: `r` and `s` are the last remainders, `t` and `u` the
factors that give them. The result is the last remainder that is not zero, with its factor. -/
def euclid (r s : Nat) (t u : Int) : Nat × Int :=
  if s = 0 then (r, t) else euclid s (r % s) u (t - (r / s : Nat) * u)
termination_by s
decreasing_by exact Nat.mod_lt _ (by omega)

/-- The number that gives one when multiplied with `a`. -/
def inverse? (a modulus : Nat) : Option Nat :=
  let (divisor, factor) := euclid modulus (a % modulus) 0 1
  if divisor = 1 then some (factor % modulus).toNat else none

/-- Whether one of `count` squarings in a row, the value before them included, gives `target`. -/
def squaresTo (target modulus : Nat) : (count : Nat) → Nat → Bool
  | 0, _ => false
  | count + 1, x => x == target || squaresTo target modulus count (x * x % modulus)

/-- How often two divides a number that is not zero. -/
def twos (n : Nat) : Nat :=
  if n = 0 ∨ n % 2 = 1 then 0 else twos (n / 2) + 1
termination_by n
decreasing_by exact Nat.div_lt_self (by omega) (by decide)

/-- The test of Miller and Rabin to the given bases; an odd number that is not prime passes only
if all of them are liars. -/
def passes (n : Nat) (bases : List Nat) : Bool :=
  let count := twos (n - 1)
  let start := (n - 1) / 2 ^ count
  bases.all fun base =>
    let x := pow base start n
    x == 1 || squaresTo (n - 1) n count x

end CryptoConditions.Modular
