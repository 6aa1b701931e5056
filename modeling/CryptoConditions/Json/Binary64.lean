import CryptoConditions.Text.Numeral

/-! Binary fractions of 53 bits with an exponent from -1074 to 971, as exact
numbers: rounding to them, product, quotient, and their shortest decimals. -/

namespace CryptoConditions

/-- A mantissa below 2⁵³ times a power of two; the sign stands apart. -/
structure Binary64 where
  mantissa : Nat
  exponent : Int
deriving DecidableEq

namespace Binary64

def zero : Binary64 := ⟨0, -1074⟩

/-- The quotient to the nearest whole number, an exact half to an even one. -/
def roundDiv (num den : Nat) : Nat :=
  let quotient := num / den
  let rest := 2 * (num % den)
  if den < rest ∨ (rest = den ∧ quotient % 2 = 1) then quotient + 1 else quotient

/-- Numerator and denominator of `num / den * 2 ^ exponent`. -/
def scale (num den : Nat) (exponent : Int) : Nat × Nat :=
  if 0 ≤ exponent then (num * 2 ^ exponent.toNat, den) else (num, den * 2 ^ (-exponent).toNat)

/-- The nearest binary fraction to `num / den`; there is none for a quotient that is too large. -/
def ofRatio? (num den : Nat) : Option Binary64 :=
  if num = 0 then some zero
  else
    let guess : Int := (num.log2 : Int) - den.log2 - 52
    let (n, d) := scale num den (-guess)
    let exponent := max (-1074) (if n / d < 2 ^ 52 then guess - 1 else guess)
    let (n, d) := scale num den (-exponent)
    let mantissa := roundDiv n d
    let (mantissa, exponent) :=
      if mantissa = 2 ^ 53 then (2 ^ 52, exponent + 1) else (mantissa, exponent)
    if exponent ≤ 971 then some ⟨mantissa, exponent⟩ else none

def mul? (x y : Binary64) : Option Binary64 :=
  let (num, den) := scale (x.mantissa * y.mantissa) 1 (x.exponent + y.exponent)
  ofRatio? num den

/-- A quotient that is not rounded to infinity; the divisor is not zero. -/
def div (x y : Binary64) : Binary64 :=
  let (num, den) := scale x.mantissa y.mantissa (x.exponent - y.exponent)
  (ofRatio? num den).getD zero

/-- The binary fraction nearest to a power of ten up to 10³⁰⁸. -/
def tenPow (n : Nat) : Binary64 :=
  (ofRatio? (10 ^ n) 1).getD zero

/-- A number `digits * 10 ^ exponent`. -/
structure Decimal where
  digits : Nat
  exponent : Int
deriving DecidableEq

/-- Quarter units of the last place around a binary fraction: the bounds of what rounds to it. -/
def bounds (x : Binary64) : Nat × Nat :=
  let below := if x.mantissa = 2 ^ 52 ∧ -1074 < x.exponent then 1 else 2
  (4 * x.mantissa - below, 4 * x.mantissa + 2)

/-- The decimal of so many places nearest to `x` among those that round to it: one of its two
neighbours on that grid. The grid is `10 ^ exponent`. -/
def onGrid? (x : Binary64) (exponent : Int) : Option Decimal :=
  let (low, high) := bounds x
  -- a quarter unit is `quarter / step` steps of the grid
  let (quarter, step) := scale 1 1 (x.exponent - 2)
  let (quarter, step) :=
    if 0 ≤ exponent then (quarter, step * 10 ^ exponent.toNat)
    else (quarter * 10 ^ (-exponent).toNat, step)
  let value := 4 * x.mantissa * quarter
  let rounds (digits : Nat) : Bool :=
    let point := digits * step
    if x.mantissa % 2 = 0 then low * quarter ≤ point ∧ point ≤ high * quarter
    else low * quarter < point ∧ point < high * quarter
  let floor := value / step
  let nearer := roundDiv value step
  let other := if nearer = floor then floor + 1 else floor
  if rounds nearer then some ⟨nearer, exponent⟩
  else if rounds other then some ⟨other, exponent⟩
  else none

/-- The place of the first digit of a number that is not zero: `10 ^ place` is not above it. -/
def firstPlace (x : Binary64) : Int :=
  let (num, den) := scale x.mantissa 1 x.exponent
  (Numeral.digits 10 (num * 10 ^ 330 / den)).length - 331

/-- The decimal with the fewest digits that rounds to a number that is not zero, and of these
the nearest; `count` grids are left to try. -/
def shortestFrom (x : Binary64) (place : Int) : (count : Nat) → Decimal
  | 0 => ⟨0, 0⟩
  | count + 1 => (onGrid? x (place - 16 + count)).getD (shortestFrom x place count)

def shortest (x : Binary64) : Decimal :=
  shortestFrom x (firstPlace x) 17

end Binary64

end CryptoConditions
