import Mathlib.Algebra.Order.Field.Power
import Mathlib.Data.Nat.Cast.Order.Field
import Mathlib.Data.Rat.Cast.Order
import Mathlib.Tactic.FieldSimp
import Mathlib.Tactic.Linarith
import Mathlib.Tactic.NormNum
import Mathlib.Tactic.Positivity
import Mathlib.Tactic.Ring
import CryptoConditions.Json.Binary64
import CryptoConditions.Proofs.Text.Numeral

/-! The decimal that a binary fraction is written with rounds to it. On the finest grid that is
tried, seventeen digits from the first one, the nearest point is closer than half a unit of the
last place, and than a quarter of one just above a power of two; so a decimal is always found. No
decimal rounds to two different fractions. -/

namespace CryptoConditions.Binary64

/-- The mantissa is as long as it can be, and the exponent is in its range. -/
structure Normal (x : Binary64) : Prop where
  mantissa : x.mantissa < 2 ^ 53
  least : -1074 ≤ x.exponent
  greatest : x.exponent ≤ 971
  leading : 2 ^ 52 ≤ x.mantissa ∨ x.exponent = -1074

variable {x y : Binary64}

/-- A quarter of a unit of the last place. -/
def quarter (x : Binary64) : ℚ := 2 ^ (x.exponent - 2)

def value (x : Binary64) : ℚ := 4 * x.mantissa * x.quarter

theorem quarter_pos (x : Binary64) : 0 < x.quarter := by
  unfold quarter
  positivity

/-- The numbers for which `x` is the nearest fraction; a tie goes to an even mantissa. -/
def RoundsTo (x : Binary64) (q : ℚ) : Prop :=
  if x.mantissa % 2 = 0 then (bounds x).1 * x.quarter ≤ q ∧ q ≤ (bounds x).2 * x.quarter
  else (bounds x).1 * x.quarter < q ∧ q < (bounds x).2 * x.quarter

theorem RoundsTo.le {q : ℚ} (rounds : x.RoundsTo q) :
    (bounds x).1 * x.quarter ≤ q ∧ q ≤ (bounds x).2 * x.quarter := by
  unfold RoundsTo at rounds
  split at rounds
  · exact rounds
  · exact ⟨rounds.1.le, rounds.2.le⟩

theorem roundsTo_of_lt {q : ℚ} (low : (bounds x).1 * x.quarter < q)
    (high : q < (bounds x).2 * x.quarter) : x.RoundsTo q := by
  unfold RoundsTo
  split
  · exact ⟨low.le, high.le⟩
  · exact ⟨low, high⟩

section Scale

variable {num den : Nat} {e : Int}

theorem scale_pos (positive : 0 < den) : 0 < (scale num den e).2 := by
  unfold scale
  split
  · exact positive
  · positivity

theorem scale_ratio (positive : 0 < den) :
    ((scale num den e).1 : ℚ) = num / den * 2 ^ e * (scale num den e).2 := by
  have nonzero : (den : ℚ) ≠ 0 := by positivity
  unfold scale
  split
  · next whole =>
    have power : (2 : ℚ) ^ e = 2 ^ e.toNat := by rw [← zpow_natCast, Int.toNat_of_nonneg whole]
    simp only [power]
    push_cast
    field_simp
  · next fraction =>
    have power : (2 : ℚ) ^ e = (2 ^ (-e).toNat)⁻¹ := by
      rw [← zpow_natCast, Int.toNat_of_nonneg (by omega), zpow_neg, inv_inv]
    simp only [power]
    push_cast
    field_simp

end Scale

section Grid

def units (x : Binary64) (exponent : Int) : Nat × Nat :=
  let base := scale 1 1 (x.exponent - 2)
  if 0 ≤ exponent then (base.1, base.2 * 10 ^ exponent.toNat)
  else (base.1 * 10 ^ (-exponent).toNat, base.2)

def rounds (x : Binary64) (exponent : Int) (digits : Nat) : Bool :=
  let quarter := (units x exponent).1
  let point := digits * (units x exponent).2
  if x.mantissa % 2 = 0 then (bounds x).1 * quarter ≤ point ∧ point ≤ (bounds x).2 * quarter
  else (bounds x).1 * quarter < point ∧ point < (bounds x).2 * quarter

def nearest (x : Binary64) (exponent : Int) : Nat :=
  roundDiv (4 * x.mantissa * (units x exponent).1) (units x exponent).2

def beside (x : Binary64) (exponent : Int) : Nat :=
  let floor := 4 * x.mantissa * (units x exponent).1 / (units x exponent).2
  if nearest x exponent = floor then floor + 1 else floor

variable {exponent : Int}

theorem units_pos : 0 < (units x exponent).2 := by
  have positive : 0 < (scale 1 1 (x.exponent - 2)).2 := scale_pos Nat.one_pos
  unfold units
  split
  · simp only
    positivity
  · exact positive

theorem units_ratio :
    ((units x exponent).1 : ℚ) * 10 ^ exponent = x.quarter * (units x exponent).2 := by
  have ratio : ((scale 1 1 (x.exponent - 2)).1 : ℚ) =
      x.quarter * (scale 1 1 (x.exponent - 2)).2 := by
    rw [scale_ratio Nat.one_pos, quarter]
    simp
  unfold units
  split
  · next whole =>
    have power : (10 : ℚ) ^ exponent = 10 ^ exponent.toNat := by
      rw [← zpow_natCast, Int.toNat_of_nonneg whole]
    simp only [power]
    push_cast
    rw [ratio]
    ring
  · next fraction =>
    have power : (10 : ℚ) ^ exponent = (10 ^ (-exponent).toNat)⁻¹ := by
      rw [← zpow_natCast, Int.toNat_of_nonneg (by omega), zpow_neg, inv_inv]
    simp only [power]
    push_cast
    rw [ratio]
    field_simp

theorem onGrid?_eq (x : Binary64) (exponent : Int) : onGrid? x exponent =
    if rounds x exponent (nearest x exponent) then some ⟨nearest x exponent, exponent⟩
    else if rounds x exponent (beside x exponent) then some ⟨beside x exponent, exponent⟩
    else none := rfl

theorem quarters_measure (a : Nat) : ((a * (units x exponent).1 : Nat) : ℚ) * 10 ^ exponent =
    a * x.quarter * (units x exponent).2 := by
  rw [Nat.cast_mul, mul_assoc, units_ratio, mul_assoc]

theorem points_measure (digits : Nat) :
    ((digits * (units x exponent).2 : Nat) : ℚ) * 10 ^ exponent =
      digits * 10 ^ exponent * (units x exponent).2 := by
  push_cast
  ring

theorem quarters_le_iff {a digits : Nat} :
    a * (units x exponent).1 ≤ digits * (units x exponent).2 ↔
      (a : ℚ) * x.quarter ≤ digits * 10 ^ exponent := by
  have step : (0 : ℚ) < (units x exponent).2 := by exact_mod_cast units_pos
  have power : (0 : ℚ) < 10 ^ exponent := by positivity
  rw [← mul_le_mul_iff_left₀ step, ← quarters_measure, ← points_measure,
    mul_le_mul_iff_left₀ power, Nat.cast_le]

theorem points_le_iff {a digits : Nat} :
    digits * (units x exponent).2 ≤ a * (units x exponent).1 ↔
      (digits : ℚ) * 10 ^ exponent ≤ a * x.quarter := by
  have step : (0 : ℚ) < (units x exponent).2 := by exact_mod_cast units_pos
  have power : (0 : ℚ) < 10 ^ exponent := by positivity
  rw [← mul_le_mul_iff_left₀ step, ← quarters_measure, ← points_measure,
    mul_le_mul_iff_left₀ power, Nat.cast_le]

theorem rounds_iff {digits : Nat} :
    rounds x exponent digits = true ↔ x.RoundsTo (digits * 10 ^ exponent) := by
  unfold rounds RoundsTo
  split
  · rw [decide_eq_true_iff, quarters_le_iff, points_le_iff]
  · rw [decide_eq_true_iff, ← not_le, ← not_le, quarters_le_iff, points_le_iff, not_le, not_le]

theorem roundsTo_of_onGrid? {d : Decimal} (found : onGrid? x exponent = some d) :
    x.RoundsTo (d.digits * 10 ^ d.exponent) := by
  rw [onGrid?_eq] at found
  split at found
  · next nearer =>
    cases found
    exact rounds_iff.1 nearer
  · split at found
    · next other =>
      cases found
      exact rounds_iff.1 other
    · cases found

theorem roundDiv_near {num den : Nat} (positive : 0 < den) :
    2 * num ≤ 2 * (roundDiv num den * den) + den ∧
      2 * (roundDiv num den * den) ≤ 2 * num + den := by
  have whole := Nat.div_add_mod' num den
  have small := Nat.mod_lt num positive
  unfold roundDiv
  simp only
  split
  · rw [Nat.add_mul, Nat.one_mul]
    omega
  · omega

theorem nearest_near : 2 * x.value ≤ 2 * (nearest x exponent * 10 ^ exponent) + 10 ^ exponent ∧
    2 * (nearest x exponent * 10 ^ exponent) ≤ 2 * x.value + 10 ^ exponent := by
  have step : (0 : ℚ) < (units x exponent).2 := by exact_mod_cast units_pos
  have power : (0 : ℚ) < 10 ^ exponent := by positivity
  have near : 2 * (4 * x.mantissa * (units x exponent).1) ≤
        2 * (nearest x exponent * (units x exponent).2) + (units x exponent).2 ∧
      2 * (nearest x exponent * (units x exponent).2) ≤
        2 * (4 * x.mantissa * (units x exponent).1) + (units x exponent).2 :=
    roundDiv_near units_pos
  have center : ((4 * x.mantissa * (units x exponent).1 : Nat) : ℚ) * 10 ^ exponent =
      x.value * (units x exponent).2 := by
    rw [quarters_measure, value]
    push_cast
    ring
  have point : ((nearest x exponent * (units x exponent).2 : Nat) : ℚ) * 10 ^ exponent =
      nearest x exponent * 10 ^ exponent * (units x exponent).2 := points_measure _
  have low : (2 * ((4 * x.mantissa * (units x exponent).1 : Nat) : ℚ)) ≤
      2 * ((nearest x exponent * (units x exponent).2 : Nat) : ℚ) + (units x exponent).2 := by
    exact_mod_cast near.1
  have high : 2 * ((nearest x exponent * (units x exponent).2 : Nat) : ℚ) ≤
      2 * ((4 * x.mantissa * (units x exponent).1 : Nat) : ℚ) + (units x exponent).2 := by
    exact_mod_cast near.2
  constructor
  · rw [← mul_le_mul_iff_left₀ step]
    linarith [mul_le_mul_of_nonneg_right low power.le]
  · rw [← mul_le_mul_iff_left₀ step]
    linarith [mul_le_mul_of_nonneg_right high power.le]

theorem bounds_low (nonzero : x.mantissa ≠ 0) : ((bounds x).1 : ℚ) =
    4 * x.mantissa - (if x.mantissa = 2 ^ 52 ∧ -1074 < x.exponent then 1 else 2) := by
  have room : (if x.mantissa = 2 ^ 52 ∧ -1074 < x.exponent then 1 else 2) ≤ 4 * x.mantissa := by
    split <;> omega
  simp only [bounds]
  rw [Nat.cast_sub room]
  push_cast
  rfl

theorem bounds_high (x : Binary64) : ((bounds x).2 : ℚ) = 4 * x.mantissa + 2 := by
  simp [bounds]

theorem onGrid?_of_fine (normal : x.Normal) (nonzero : x.mantissa ≠ 0)
    (fine : (10 : ℚ) ^ exponent * 10 ^ 16 ≤ x.value) : ∃ d, onGrid? x exponent = some d := by
  -- Half a step is less than half a unit, and less than a quarter of one above a power of two.
  have near : 2 * x.value ≤ 2 * (nearest x exponent * 10 ^ exponent) + 10 ^ exponent ∧
    2 * (nearest x exponent * 10 ^ exponent) ≤ 2 * x.value + 10 ^ exponent := nearest_near
  have positive := x.quarter_pos
  have longest : (x.mantissa : ℚ) * x.quarter < 2 ^ 53 * x.quarter :=
    mul_lt_mul_of_pos_right (by exact_mod_cast normal.mantissa) positive
  have hits : rounds x exponent (nearest x exponent) = true := by
    rw [value] at fine near
    rw [rounds_iff]
    apply roundsTo_of_lt
    · rw [bounds_low nonzero]
      split
      · next power =>
        rw [power.1] at fine near ⊢
        push_cast at fine near ⊢
        linarith
      · linarith
    · rw [bounds_high]
      linarith
  rw [onGrid?_eq, if_pos hits]
  exact ⟨_, rfl⟩

end Grid

def Decimal.value (d : Decimal) : ℚ := d.digits * 10 ^ d.exponent

theorem value_eq (x : Binary64) : x.value = x.mantissa * 2 ^ x.exponent := by
  rw [value, quarter, zpow_sub₀ two_ne_zero]
  ring

theorem two_pow_le_ten_pow : (2 : ℚ) ^ 1074 ≤ 10 ^ 330 := by
  calc (2 : ℚ) ^ 1074 = (2 ^ 179) ^ 6 := pow_mul 2 179 6
    _ ≤ (10 ^ 55) ^ 6 := pow_le_pow_left₀ (by positivity) (by norm_num) 6
    _ = 10 ^ 330 := (pow_mul 10 55 6).symm

theorem least_value (normal : x.Normal) (nonzero : x.mantissa ≠ 0) : 1 ≤ x.value * 10 ^ 330 := by
  have leading : (1 : ℚ) ≤ x.mantissa := by exact_mod_cast Nat.one_le_iff_ne_zero.2 nonzero
  have power : ((2 : ℚ) ^ 1074)⁻¹ ≤ 2 ^ x.exponent := by
    rw [← zpow_natCast, ← zpow_neg]
    exact zpow_le_zpow_right₀ one_le_two normal.least
  have positive : (0 : ℚ) < 2 ^ 1074 := by positivity
  calc (1 : ℚ) = (2 ^ 1074)⁻¹ * 2 ^ 1074 := (inv_mul_cancel₀ positive.ne').symm
    _ ≤ x.value * 10 ^ 330 := by
      refine mul_le_mul ?_ two_pow_le_ten_pow positive.le ?_
      · rw [value_eq]
        exact power.trans (le_mul_of_one_le_left (by positivity) leading)
      · rw [value_eq]
        positivity

theorem firstPlace_le (normal : x.Normal) (nonzero : x.mantissa ≠ 0) :
    (10 : ℚ) ^ firstPlace x ≤ x.value := by
  have positive : 0 < (scale x.mantissa 1 x.exponent).2 := scale_pos Nat.one_pos
  have ratio : ((scale x.mantissa 1 x.exponent).1 : ℚ) =
      x.value * (scale x.mantissa 1 x.exponent).2 := by
    rw [scale_ratio Nat.one_pos, value_eq]
    simp
  have place : firstPlace x = (Numeral.digits 10 ((scale x.mantissa 1 x.exponent).1 * 10 ^ 330 /
      (scale x.mantissa 1 x.exponent).2)).length - 331 := rfl
  rw [place]
  have least := least_value normal nonzero
  -- From here on the fraction is any quotient with this value.
  generalize scale x.mantissa 1 x.exponent = fraction at *
  obtain ⟨num, den⟩ := fraction
  simp only at positive ratio ⊢
  have whole : (0 : ℚ) < den := by exact_mod_cast positive
  have scaled : ((num * 10 ^ 330 : Nat) : ℚ) = x.value * 10 ^ 330 * den := by
    rw [Nat.cast_mul, Nat.cast_pow, Nat.cast_ofNat, ratio, mul_right_comm]
  have quotient : ((num * 10 ^ 330 / den : Nat) : ℚ) ≤ x.value * 10 ^ 330 := by
    refine Nat.cast_div_le.trans (le_of_eq ?_)
    rw [scaled, mul_div_cancel_right₀ _ whole.ne']
  have enough : den ≤ num * 10 ^ 330 := by
    have le : (den : ℚ) ≤ (num * 10 ^ 330 : Nat) := by
      rw [scaled]
      exact le_mul_of_one_le_left whole.le least
    exact_mod_cast le
  have written := List.length_pos_iff.2 (Numeral.digits_ne_nil 10 (num * 10 ^ 330 / den))
  have first := Numeral.pow_length_digits_le (Nat.div_pos enough positive).ne'
  generalize num * 10 ^ 330 / den = n at *
  generalize (Numeral.digits 10 n).length = length at *
  have shifted : (10 : ℚ) ^ ((length : Int) - 331) * 10 ^ 330 = (10 ^ (length - 1) : Nat) := by
    push_cast
    rw [← zpow_natCast, ← zpow_natCast, ← zpow_add₀ (by norm_num)]
    congr 1
    omega
  have power : (0 : ℚ) < 10 ^ 330 := by positivity
  have leading : ((10 ^ (length - 1) : Nat) : ℚ) ≤ n := by exact_mod_cast first
  rw [← mul_le_mul_iff_left₀ power, shifted]
  exact leading.trans quotient

theorem shortestFrom_rounds {place : Int} (found : ∃ d, onGrid? x (place - 16) = some d)
    (count : Nat) : x.RoundsTo (shortestFrom x place (count + 1)).value := by
  rw [shortestFrom]
  cases here : onGrid? x (place - 16 + count) with
  | some d => exact roundsTo_of_onGrid? here
  | none =>
    cases count with
    | zero =>
      obtain ⟨d, found⟩ := found
      rw [Nat.cast_zero, add_zero, found] at here
      cases here
    | succ count => exact shortestFrom_rounds found count

theorem shortest_rounds (normal : x.Normal) (nonzero : x.mantissa ≠ 0) :
    x.RoundsTo x.shortest.value := by
  have fine : (10 : ℚ) ^ (firstPlace x - 16) * 10 ^ 16 ≤ x.value := by
    have place := firstPlace_le normal nonzero
    rw [zpow_sub₀ (by norm_num)]
    norm_num
    exact place
  exact shortestFrom_rounds (onGrid?_of_fine normal nonzero fine) 16

theorem shortest_digits_ne_zero (normal : x.Normal) (nonzero : x.mantissa ≠ 0) :
    x.shortest.digits ≠ 0 := by
  intro zero
  have rounds := (shortest_rounds normal nonzero).le.1
  rw [Decimal.value, zero, bounds_low nonzero, Nat.cast_zero, zero_mul] at rounds
  have leading : (1 : ℚ) ≤ x.mantissa := by exact_mod_cast Nat.one_le_iff_ne_zero.2 nonzero
  have positive : 0 < ((4 : ℚ) * x.mantissa - 2) * x.quarter :=
    mul_pos (by linarith) x.quarter_pos
  have above := x.quarter_pos
  split at rounds <;> linarith

section Apart

variable {q : ℚ} (left : x.RoundsTo q) (right : y.RoundsTo q)

include left right

theorem bounds_meet : ((bounds y).1 : ℚ) * y.quarter ≤ (bounds x).2 * x.quarter :=
  right.le.1.trans left.le.2

theorem bounds_overlap_of_odd (odd : x.mantissa % 2 = 1 ∨ y.mantissa % 2 = 1) :
    ((bounds y).1 : ℚ) * y.quarter < (bounds x).2 * x.quarter := by
  rcases odd with odd | odd
  · rw [RoundsTo, if_neg (by omega)] at left
    exact right.le.1.trans_lt left.2
  · rw [RoundsTo, if_neg (by omega)] at right
    exact right.1.trans_le left.le.2

theorem not_roundsTo_of_mantissa_lt (same : x.exponent = y.exponent)
    (less : x.mantissa < y.mantissa) : False := by
  -- Neighbours on one grid meet in a point that only an even mantissa rounds to.
  have touch := bounds_meet left right
  have apart := bounds_overlap_of_odd left right
  have quarters : y.quarter = x.quarter := by rw [quarter, quarter, same]
  rw [quarters] at touch apart
  rw [mul_le_mul_iff_left₀ x.quarter_pos, Nat.cast_le] at touch
  rw [mul_lt_mul_iff_left₀ x.quarter_pos, Nat.cast_lt] at apart
  have below : (if y.mantissa = 2 ^ 52 ∧ -1074 < y.exponent then 1 else 2) ≤ 2 := by
    split <;> omega
  simp only [bounds] at touch apart
  omega

theorem not_roundsTo_of_exponent_lt (lower : x.Normal) (normal : y.Normal)
    (less : x.exponent < y.exponent) : False := by
  -- Only the greatest mantissa of one grid comes near the least of a coarser one, and it is odd.
  have touch := bounds_meet left right
  have apart := bounds_overlap_of_odd left right
  have positive := x.quarter_pos
  have leading := normal.leading
  have least := lower.least
  have longest := lower.mantissa
  have quarters : 2 * x.quarter ≤ y.quarter := by
    have power : (2 : ℚ) * 2 ^ (x.exponent - 2) = 2 ^ (x.exponent - 2 + 1) := by
      rw [zpow_add_one₀ two_ne_zero, mul_comm]
    rw [quarter, quarter, power]
    exact zpow_le_zpow_right₀ one_le_two (by omega)
  have low : 2 ^ 54 ≤ (bounds y).1 + 1 := by
    simp only [bounds]
    split <;> omega
  have least' : (2 ^ 54 : ℚ) ≤ (bounds y).1 + 1 := by exact_mod_cast low
  have bound : (2 ^ 54 - 1 : ℚ) * (2 * x.quarter) ≤ (bounds y).1 * y.quarter :=
    mul_le_mul (by linarith) quarters (by positivity) (by positivity)
  have reach : (2 ^ 55 - 2 : ℚ) * x.quarter ≤ (bounds x).2 * x.quarter := by linarith
  rw [mul_le_mul_iff_left₀ positive, bounds_high] at reach
  have full : 2 ^ 53 ≤ x.mantissa + 1 := by
    have cast : (2 ^ 53 : ℚ) ≤ x.mantissa + 1 := by linarith
    exact_mod_cast cast
  have strict : (2 ^ 55 - 2 : ℚ) * x.quarter < (bounds x).2 * x.quarter := by
    linarith [apart (.inl (by omega))]
  rw [mul_lt_mul_iff_left₀ positive, bounds_high] at strict
  have carried : 2 ^ 53 < x.mantissa + 1 := by
    have cast : (2 ^ 53 : ℚ) < x.mantissa + 1 := by linarith
    exact_mod_cast cast
  omega

end Apart

theorem not_roundsTo_both {q : ℚ} (lower : x.Normal) (normal : y.Normal)
    (less : (x.exponent = y.exponent ∧ x.mantissa < y.mantissa) ∨ x.exponent < y.exponent)
    (left : x.RoundsTo q) (right : y.RoundsTo q) : False := by
  rcases less with ⟨same, less⟩ | less
  · exact not_roundsTo_of_mantissa_lt left right same less
  · exact not_roundsTo_of_exponent_lt left right lower normal less

theorem eq_of_roundsTo {q : ℚ} (normal : x.Normal) (normal' : y.Normal) (left : x.RoundsTo q)
    (right : y.RoundsTo q) : x = y := by
  obtain ⟨m, e⟩ := x
  obtain ⟨m', e'⟩ := y
  rcases lt_trichotomy e e' with below | rfl | above
  · exact (not_roundsTo_both normal normal' (.inr below) left right).elim
  · rcases lt_trichotomy m m' with below | rfl | above
    · exact (not_roundsTo_both normal normal' (.inl ⟨rfl, below⟩) left right).elim
    · rfl
    · exact (not_roundsTo_both normal' normal (.inl ⟨rfl, above⟩) right left).elim
  · exact (not_roundsTo_both normal' normal (.inr above) right left).elim

end CryptoConditions.Binary64
