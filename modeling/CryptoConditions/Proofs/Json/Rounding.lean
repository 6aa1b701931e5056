import CryptoConditions.Proofs.Json.Number

/-! Fractions that are read are in their normal form. A quotient is rounded at the place where its
whole part has 53 bits, or at the last place there is. -/

namespace CryptoConditions

namespace Binary64

section Rounding

variable {num den : Nat} {e : Int}

theorem scale_div_lt_iff (positive : 0 < den) {k : Nat} :
    (scale num den e).1 / (scale num den e).2 < k ↔ (num / den * 2 ^ e : ℚ) < k := by
  have bottom : 0 < (scale num den e).2 := scale_pos positive
  have ratio : ((scale num den e).1 : ℚ) = num / den * 2 ^ e * (scale num den e).2 :=
    scale_ratio positive
  have whole : (0 : ℚ) < (scale num den e).2 := by exact_mod_cast bottom
  rw [Nat.div_lt_iff_lt_mul bottom, ← mul_lt_mul_iff_left₀ whole, ← ratio]
  norm_cast

theorem roundDiv_le {k : Nat} (small : num / den < k) : roundDiv num den ≤ k := by
  unfold roundDiv
  simp only
  split <;> omega

theorem div_le_roundDiv (num den : Nat) : num / den ≤ roundDiv num den := by
  unfold roundDiv
  simp only
  split <;> omega

/-- The place at which the whole part of a quotient has 52 or 53 bits. -/
def guess (num den : Nat) : Int := (num.log2 : Int) - den.log2 - 52

theorem guess_bounds (nonzero : num ≠ 0) (positive : 0 < den) :
    (2 ^ 51 : ℚ) < num / den * 2 ^ (-guess num den) ∧
      (num / den * 2 ^ (-guess num den) : ℚ) < 2 ^ 53 := by
  have numLow : (2 : ℚ) ^ num.log2 ≤ num := by exact_mod_cast Nat.log2_self_le nonzero
  have numHigh : (num : ℚ) < 2 ^ (num.log2 + 1) := by exact_mod_cast Nat.lt_log2_self
  have denLow : (2 : ℚ) ^ den.log2 ≤ den := by
    exact_mod_cast Nat.log2_self_le (Nat.pos_iff_ne_zero.1 positive)
  have denHigh : (den : ℚ) < 2 ^ (den.log2 + 1) := by exact_mod_cast Nat.lt_log2_self
  have whole : (0 : ℚ) < den := by exact_mod_cast positive
  have power : (2 : ℚ) ^ (-guess num den) = 2 ^ den.log2 * 2 ^ 52 / 2 ^ num.log2 := by
    have sum : -guess num den = (den.log2 : Int) + 52 - num.log2 := by
      rw [guess]
      omega
    rw [sum, zpow_sub₀ (by norm_num), zpow_add₀ (by norm_num)]
    norm_cast
  rw [power, div_mul_div_comm, lt_div_iff₀ (by positivity), div_lt_iff₀ (by positivity)]
  constructor
  · calc (2 ^ 51 * (den * 2 ^ num.log2) : ℚ) < 2 ^ 51 * (2 ^ (den.log2 + 1) * 2 ^ num.log2) := by
          gcongr
      _ = 2 ^ num.log2 * (2 ^ den.log2 * 2 ^ 52) := by ring
      _ ≤ num * (2 ^ den.log2 * 2 ^ 52) := by gcongr
  · calc (num * (2 ^ den.log2 * 2 ^ 52) : ℚ) < 2 ^ (num.log2 + 1) * (2 ^ den.log2 * 2 ^ 52) := by
          gcongr
      _ = 2 ^ 53 * (2 ^ den.log2 * 2 ^ num.log2) := by ring
      _ ≤ 2 ^ 53 * (den * 2 ^ num.log2) := by gcongr

def place (num den : Nat) : Int :=
  max (-1074) (if (scale num den (-guess num den)).1 / (scale num den (-guess num den)).2 < 2 ^ 52
    then guess num den - 1 else guess num den)

theorem place_bounds (nonzero : num ≠ 0) (positive : 0 < den) :
    (num / den * 2 ^ (-place num den) : ℚ) < 2 ^ 53 ∧
      (2 ^ 52 ≤ (num / den * 2 ^ (-place num den) : ℚ) ∨ place num den = -1074) := by
  have wanted : ∃ exponent, place num den = max (-1074) exponent ∧
      (2 ^ 52 : ℚ) ≤ num / den * 2 ^ (-exponent) ∧
      (num / den * 2 ^ (-exponent) : ℚ) < 2 ^ 53 := by
    -- The guess is the exponent wanted, or one more.
    obtain ⟨low, high⟩ := guess_bounds nonzero positive
    refine ⟨_, rfl, ?_⟩
    split
    · next short =>
      rw [scale_div_lt_iff positive] at short
      have double : (num / den * 2 ^ (-(guess num den - 1)) : ℚ) =
          num / den * 2 ^ (-guess num den) * 2 := by
        rw [neg_sub, sub_eq_neg_add, zpow_add₀ (by norm_num), zpow_one, mul_assoc]
      rw [double]
      push_cast at short
      constructor <;> linarith
    · next long =>
      rw [scale_div_lt_iff positive] at long
      push_cast at long
      exact ⟨not_lt.1 long, high⟩
  obtain ⟨exponent, is, low, high⟩ := wanted
  rw [is]
  by_cases last : -1074 ≤ exponent
  · rw [max_eq_right last]
    exact ⟨high, .inl low⟩
  · rw [max_eq_left (by omega)]
    refine ⟨lt_of_le_of_lt ?_ high, .inr rfl⟩
    have power : (2 : ℚ) ^ (-(-1074) : Int) ≤ 2 ^ (-exponent) :=
      zpow_le_zpow_right₀ (by norm_num) (by omega)
    gcongr

theorem ofRatio?_eq (nonzero : num ≠ 0) : ofRatio? num den =
    let mantissa := roundDiv (scale num den (-place num den)).1 (scale num den (-place num den)).2
    let parts := if mantissa = 2 ^ 53 then (2 ^ 52, place num den + 1)
      else (mantissa, place num den)
    if parts.2 ≤ 971 then some ⟨parts.1, parts.2⟩ else none := by
  rw [ofRatio?, if_neg nonzero]
  rfl

theorem normal_zero : zero.Normal :=
  ⟨by decide, by decide, by decide, .inr rfl⟩

theorem normal_of_ofRatio? {x : Binary64} (positive : 0 < den)
    (found : ofRatio? num den = some x) : x.Normal := by
  by_cases nonzero : num = 0
  · rw [ofRatio?, if_pos nonzero] at found
    cases found
    exact normal_zero
  · obtain ⟨high, low⟩ := place_bounds nonzero positive
    have short := roundDiv_le ((scale_div_lt_iff positive).2 (by exact_mod_cast high))
    have long : 2 ^ 52 ≤ roundDiv (scale num den (-place num den)).1
        (scale num den (-place num den)).2 ∨ place num den = -1074 := by
      refine low.imp_left fun low => ?_
      have whole := (scale_div_lt_iff (k := 2 ^ 52) positive).not.2
        (not_lt.2 (by exact_mod_cast low))
      exact (not_lt.1 whole).trans (div_le_roundDiv _ _)
    have least : -1074 ≤ place num den := le_max_left _ _
    rw [ofRatio?_eq nonzero] at found
    generalize roundDiv (scale num den (-place num den)).1 (scale num den (-place num den)).2 =
      mantissa at *
    dsimp only at found
    -- A mantissa that was rounded up to the next power of two is halved.
    split at found
    · next carried =>
      split at found
      · next fits =>
        cases found
        have later : -1074 ≤ place num den + 1 := by omega
        exact ⟨Nat.pow_lt_pow_right (by decide) (by decide), later, fits, .inl (le_refl _)⟩
      · cases found
    · next plain =>
      split at found
      · next fits =>
        cases found
        exact ⟨lt_of_le_of_ne short plain, least, fits, long⟩
      · cases found

end Rounding

variable {x y z : Binary64}

theorem normal_of_mul? (found : mul? x y = some z) : z.Normal :=
  normal_of_ofRatio? (scale_pos Nat.one_pos) found

theorem normal_div (positive : 0 < y.mantissa) : (div x y).Normal := by
  have bottom : 0 < (scale x.mantissa y.mantissa (x.exponent - y.exponent)).2 := scale_pos positive
  have folded : div x y = (ofRatio? (scale x.mantissa y.mantissa (x.exponent - y.exponent)).1
    (scale x.mantissa y.mantissa (x.exponent - y.exponent)).2).getD zero := rfl
  rw [folded]
  cases found : ofRatio? (scale x.mantissa y.mantissa (x.exponent - y.exponent)).1
    (scale x.mantissa y.mantissa (x.exponent - y.exponent)).2 with
  | none => exact normal_zero
  | some z => exact normal_of_ofRatio? bottom found

theorem tenPow_pos : ∀ n < 309, 0 < (tenPow n).mantissa := by
  decide +kernel

end Binary64

namespace Literal

theorem normal_of_scaled? {x y : Binary64} {exponent : Int} (normal : x.Normal)
    (found : scaled? x exponent = some y) : y.Normal := by
  fun_induction scaled? x exponent with
  | case1 | case5 =>
    cases found
    exact normal
  | case2 => cases found
  | case3 => exact Binary64.normal_of_mul? found
  | case4 x exponent =>
    cases found
    exact Binary64.normal_div (Binary64.tenPow_pos _ (by omega))
  | case6 x exponent _ _ _ _ ih =>
    exact ih (Binary64.normal_div (Binary64.tenPow_pos 308 (by decide))) found

theorem normal_of_magnitude? {l : Literal} {x : Binary64} (found : l.magnitude? = some x) :
    x.Normal := by
  unfold magnitude? at found
  simp only at found
  split at found
  · obtain ⟨whole, rounded, scaled⟩ := Option.bind_eq_some_iff.1 found
    exact normal_of_scaled? (Binary64.normal_of_ofRatio? Nat.one_pos rounded) scaled
  · split at found
    · cases found
      exact Binary64.normal_zero
    · cases found

theorem normal_of_integer? {l : Literal} {n : Number} (found : l.integer? = some n) :
    n.Normal := by
  simp only [integer?, Option.bind_eq_bind, Option.bind_eq_some_iff] at found
  obtain ⟨whole, _, found⟩ := found
  generalize (if l.negative = true then -(whole : Int) else whole) = i at found
  split at found
  · split at found
    · cases found
    · cases found
      trivial
  · cases found

theorem normal_of_value? {l : Literal} {n : Number} (found : l.value? = some n) : n.Normal := by
  unfold value? at found
  cases read : l.integer? with
  | some m =>
    rw [read] at found
    cases found
    exact normal_of_integer? read
  | none =>
    rw [read] at found
    obtain ⟨x, magnitude, same⟩ := Option.map_eq_some_iff.1 found
    cases same
    exact normal_of_magnitude? magnitude

end Literal

end CryptoConditions
