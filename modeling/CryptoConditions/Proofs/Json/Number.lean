import Mathlib.Data.List.TakeWhile
import CryptoConditions.Proofs.Json.Binary64
import CryptoConditions.Proofs.Json.Literal

/-! The literal that a number is written as. Its digits stand for a decimal that rounds to the
number, however the point and the exponent are placed; so different numbers are written
differently. -/

namespace CryptoConditions.Literal

def power : Option (Bool × List Nat) → Int
  | none => 0
  | some (true, digits) => -(Numeral.value 10 digits : Int)
  | some (false, digits) => Numeral.value 10 digits

def magnitude (l : Literal) : ℚ :=
  Numeral.value 10 (l.whole ++ l.fraction) * 10 ^ (power l.exponent - l.fraction.length)

section Digits

def trimmed (ds : List Nat) : List Nat :=
  (ds.reverse.dropWhile (· == 0)).reverse

theorem trimmed_append (ds : List Nat) : ∃ count, ds = trimmed ds ++ List.replicate count 0 := by
  have zeros : ds.reverse.takeWhile (· == 0) =
      List.replicate (ds.reverse.takeWhile (· == 0)).length 0 := by
    refine List.eq_replicate_of_mem fun d mem => ?_
    simpa using List.mem_takeWhile_imp mem
  refine ⟨(ds.reverse.takeWhile (· == 0)).length, ?_⟩
  calc ds = (ds.reverse.takeWhile (· == 0) ++ ds.reverse.dropWhile (· == 0)).reverse := by
        rw [List.takeWhile_append_dropWhile, List.reverse_reverse]
    _ = trimmed ds ++ List.replicate (ds.reverse.takeWhile (· == 0)).length 0 := by
        rw [zeros, List.reverse_append, List.reverse_replicate, trimmed, List.length_replicate]

/-- What digits stand for if so many of them are in front of the point. -/
def placed (ds : List Nat) (place : Int) : ℚ :=
  Numeral.value 10 ds * 10 ^ (place - ds.length)

theorem placed_append_zeros (ds : List Nat) (count : Nat) (place : Int) :
    placed (ds ++ List.replicate count 0) place = placed ds place := by
  have power : (10 : ℚ) ^ count * 10 ^ (place - (ds ++ List.replicate count 0).length) =
      10 ^ (place - ds.length) := by
    rw [← zpow_natCast, ← zpow_add₀ (by norm_num), List.length_append, List.length_replicate]
    congr 1
    push_cast
    ring
  rw [placed, Numeral.value_append_zeros, Nat.cast_mul, Nat.cast_pow, Nat.cast_ofNat, mul_assoc,
    power, placed]

theorem placed_zeros_append (ds : List Nat) (count : Nat) (place : Int) :
    placed (List.replicate count 0 ++ ds) place = placed ds (place - count) := by
  rw [placed, Numeral.value_zeros_append, placed, List.length_append, List.length_replicate]
  congr 2
  push_cast
  ring

theorem placed_trimmed (ds : List Nat) (place : Int) :
    placed (trimmed ds) place = placed ds place := by
  obtain ⟨count, same⟩ := trimmed_append ds
  rw [same, placed_append_zeros, ← same]

def pointed (negative : Bool) (ds : List Nat) (place : Int) : Literal :=
  if place ≤ 0 then ⟨negative, [0], List.replicate (-place).toNat 0 ++ ds, none⟩
  else ⟨negative, ds.take place.toNat ++
      List.replicate (place.toNat - (ds.take place.toNat).length) 0,
    if (ds.drop place.toNat).isEmpty then [0] else ds.drop place.toNat, none⟩

def scientific (negative : Bool) (ds : List Nat) (exponent : Int) : Literal :=
  ⟨negative, ds.take 1, ds.drop 1,
    some (decide (exponent < 0), Numeral.digits 10 exponent.natAbs)⟩

variable {negative : Bool} {ds : List Nat}

theorem pointed_body {place : Int} (nonempty : ds ≠ []) :
    (pointed negative ds place).body = Number.pointed (ds.map Numeral.digitChar) place := by
  have zero : Numeral.digitChar 0 = '0' := rfl
  unfold pointed Number.pointed
  split
  · simp [body, fractionChars, exponentChars, nonempty, zero]
  · by_cases beyond : ds.drop place.toNat = []
    · simp [body, fractionChars, exponentChars, beyond, zero, ← List.map_take, ← List.map_drop]
    · simp [body, fractionChars, exponentChars, beyond, zero, ← List.map_take, ← List.map_drop]

theorem scientific_body {exponent : Int} :
    (scientific negative ds exponent).body =
      Number.scientific (ds.map Numeral.digitChar) exponent := by
  rcases ds with _ | ⟨d, _ | ⟨e, ds⟩⟩ <;> by_cases below : exponent < 0 <;>
    simp [scientific, Number.scientific, body, fractionChars, exponentChars, Numeral.decimalChars,
      below]

theorem magnitude_eq (l : Literal) :
    l.magnitude = placed (l.whole ++ l.fraction) (power l.exponent + l.whole.length) := by
  rw [magnitude, placed, List.length_append]
  congr 2
  push_cast
  ring

theorem power_digits (exponent : Int) :
    power (some (decide (exponent < 0), Numeral.digits 10 exponent.natAbs)) = exponent := by
  by_cases below : exponent < 0
  · simp only [below, decide_true, power, Numeral.value_digits]
    omega
  · simp only [below, decide_false, power, Numeral.value_digits]
    omega

theorem pointed_magnitude (place : Int) :
    (pointed negative ds place).magnitude = placed ds place := by
  rw [magnitude_eq, pointed]
  split
  · next before =>
    have zeros : [0] ++ (List.replicate (-place).toNat 0 ++ ds) =
        List.replicate ((-place).toNat + 1) 0 ++ ds := rfl
    simp only [zeros, placed_zeros_append, power, List.length_singleton]
    congr 1
    omega
  · next behind =>
    -- The point stands behind all digits, or among them.
    by_cases beyond : ds.drop place.toNat = []
    · have within := List.drop_eq_nil_iff.1 beyond
      have zeros (count : Nat) : ds ++ List.replicate count 0 ++ [0] =
          ds ++ List.replicate (count + 1) 0 := by
        rw [List.replicate_succ', List.append_assoc]
      simp only [beyond, List.isEmpty_nil, if_true, List.take_of_length_le within, zeros,
        placed_append_zeros, power, List.length_append, List.length_replicate]
      congr 1
      omega
    · have long : place.toNat < ds.length := by
        rw [List.drop_eq_nil_iff] at beyond
        omega
      have whole : (ds.take place.toNat).length = place.toNat := by
        rw [List.length_take]
        omega
      simp only [whole, Nat.sub_self, List.replicate_zero, List.append_nil, List.isEmpty_iff,
        beyond, if_false, List.take_append_drop, power]
      congr 1
      omega

theorem scientific_magnitude {exponent : Int} (nonempty : ds ≠ []) :
    (scientific negative ds exponent).magnitude = placed ds (exponent + 1) := by
  have first : (ds.take 1).length = 1 := by
    have := List.length_pos_iff.2 nonempty
    rw [List.length_take]
    omega
  rw [magnitude_eq, scientific]
  simp only [List.take_append_drop, power_digits, first, Nat.cast_one]

structure Leading (ds : List Nat) : Prop where
  small : ∀ d ∈ ds, d < 10
  nonempty : ds ≠ []
  first : ds.head? ≠ some 0

theorem leading_trimmed {n : Nat} (nonzero : n ≠ 0) : Leading (trimmed (Numeral.digits 10 n)) := by
  obtain ⟨count, same⟩ := trimmed_append (Numeral.digits 10 n)
  have nonempty : trimmed (Numeral.digits 10 n) ≠ [] := by
    intro empty
    have value := Numeral.value_digits 10 n
    rw [same, Numeral.value_append_zeros, empty] at value
    simp [Numeral.value] at value
    exact nonzero value.symm
  have small : ∀ d ∈ Numeral.digits 10 n, d < 10 := Numeral.digits_lt (by decide) n
  have first : (Numeral.digits 10 n).head? ≠ some 0 := Numeral.head?_digits (by decide) nonzero
  rw [same] at small first
  refine ⟨fun d mem => small d (List.mem_append_left _ mem), nonempty, ?_⟩
  rwa [List.head?_append_of_ne_nil _ nonempty] at first

theorem pointed_plain (leading : Leading ds) (place : Int) : (pointed negative ds place).Plain := by
  have zeros (count : Nat) : ∀ d ∈ List.replicate count 0, d < 10 := by simp
  have front := fun d mem => leading.small d (List.mem_of_mem_take (i := place.toNat) mem)
  have back := fun d mem => leading.small d (List.mem_of_mem_drop (i := place.toNat) mem)
  unfold pointed
  split
  · exact ⟨.inl rfl, by simp, List.forall_mem_append.2 ⟨zeros _, leading.small⟩, nofun⟩
  · next behind =>
    have start : (ds.take place.toNat).head? = ds.head? := by
      rw [List.head?_take, if_neg (by omega)]
    have nonempty : ds.take place.toNat ≠ [] := by
      rw [Ne, ← List.head?_eq_none_iff, start, List.head?_eq_none_iff]
      exact leading.nonempty
    refine ⟨.inr ⟨by simp [nonempty], ?_⟩, List.forall_mem_append.2 ⟨front, zeros _⟩, ?_, nofun⟩
    · rw [List.head?_append_of_ne_nil _ nonempty, start]
      exact leading.first
    · split
      · simp
      · exact back

theorem scientific_plain (leading : Leading ds) (exponent : Int) :
    (scientific negative ds exponent).Plain := by
  refine ⟨.inr ⟨?_, ?_⟩, fun d mem => leading.small d (List.mem_of_mem_take mem),
    fun d mem => leading.small d (List.mem_of_mem_drop mem), ?_⟩
  · simpa [scientific] using leading.nonempty
  · rw [scientific, List.head?_take, if_neg Nat.one_ne_zero]
    exact leading.first
  · rintro _ ⟨⟩
    exact ⟨Numeral.digits_ne_nil _ _, Numeral.digits_lt (by decide) _⟩

theorem trimmed_map (small : ∀ d ∈ ds, d < 10) :
    ((ds.map Numeral.digitChar).reverse.dropWhile (· == '0')).reverse =
      (trimmed ds).map Numeral.digitChar := by
  have zero : ∀ d < 10, (Numeral.digitChar d == '0') = (d == 0) := by decide
  have drop (es : List Nat) (small : ∀ d ∈ es, d < 10) :
      (es.map Numeral.digitChar).dropWhile (· == '0') =
        (es.dropWhile (· == 0)).map Numeral.digitChar := by
    induction es with
    | nil => rfl
    | cons d es ih =>
      rw [List.forall_mem_cons] at small
      rw [List.map_cons, List.dropWhile_cons, List.dropWhile_cons, zero d small.1]
      split
      · exact ih small.2
      · rfl
  rw [trimmed, List.map_reverse, ← List.map_reverse, drop _ (by simpa using small)]

end Digits

end CryptoConditions.Literal

namespace CryptoConditions.Number

open Literal

def Normal : Number → Prop
  | integer .. => True
  | float _ x => x.Normal

def floatLiteral (negative : Bool) (x : Binary64) : Literal :=
  if x.mantissa = 0 then ⟨negative, [0], [0], none⟩
  else
    let digits := Numeral.digits 10 x.shortest.digits
    let exponent := x.shortest.exponent + digits.length - 1
    if -5 ≤ exponent ∧ exponent ≤ 15 then Literal.pointed negative (trimmed digits) (exponent + 1)
    else Literal.scientific negative (trimmed digits) exponent

def literal : Number → Literal
  | integer n _ => ⟨decide (n < 0), Numeral.digits 10 n.natAbs, [], none⟩
  | float negative x => floatLiteral negative x

section Floats

variable {negative : Bool} {x : Binary64}

theorem floatLiteral_cases (negative : Bool) (normal : x.Normal) :
    (x.mantissa = 0 ∧ floatLiteral negative x = ⟨negative, [0], [0], none⟩) ∨
    ∃ ds exponent, Leading ds ∧ x.RoundsTo (placed ds (exponent + 1)) ∧
      (floatLiteral negative x = Literal.pointed negative ds (exponent + 1) ∨
        floatLiteral negative x = Literal.scientific negative ds exponent) := by
  by_cases zero : x.mantissa = 0
  · exact .inl ⟨zero, if_pos zero⟩
  · have value : placed (trimmed (Numeral.digits 10 x.shortest.digits))
        (x.shortest.exponent + (Numeral.digits 10 x.shortest.digits).length - 1 + 1) =
        x.shortest.value := by
      rw [sub_add_cancel, placed_trimmed, placed, Numeral.value_digits, add_sub_cancel_right,
        Binary64.Decimal.value]
    refine .inr ⟨trimmed (Numeral.digits 10 x.shortest.digits),
      x.shortest.exponent + (Numeral.digits 10 x.shortest.digits).length - 1,
      leading_trimmed (Binary64.shortest_digits_ne_zero normal zero), ?_, ?_⟩
    · rw [value]
      exact Binary64.shortest_rounds normal zero
    · rw [floatLiteral, if_neg zero]
      exact ite_eq_or_eq _ _ _

theorem floatLiteral_plain (normal : x.Normal) : (floatLiteral negative x).Plain := by
  rcases floatLiteral_cases negative normal with
    ⟨_, form⟩ | ⟨ds, exponent, leading, _, form | form⟩ <;> rw [form]
  · exact ⟨.inl rfl, by simp, by simp, nofun⟩
  · exact pointed_plain leading _
  · exact scientific_plain leading _

theorem floatLiteral_rounds (normal : x.Normal) :
    x.RoundsTo (floatLiteral negative x).magnitude := by
  rcases floatLiteral_cases negative normal with
    ⟨zero, form⟩ | ⟨ds, exponent, leading, rounds, form | form⟩ <;> rw [form]
  · have value : (⟨negative, [0], [0], none⟩ : Literal).magnitude = 0 := by
      simp [magnitude, Numeral.value]
    have positive := x.quarter_pos
    rw [value, Binary64.RoundsTo, Binary64.bounds_high, Binary64.bounds, zero]
    simp [positive.le]
  · rwa [pointed_magnitude]
  · rwa [scientific_magnitude leading.nonempty]

theorem pointed_fraction {ds : List Nat} {place : Int} (nonempty : ds ≠ []) :
    (Literal.pointed negative ds place).fraction ≠ [] := by
  unfold Literal.pointed
  split
  · simp [nonempty]
  · simp only
    split
    · simp
    · next beyond => simpa using beyond

theorem pointed_negative {ds : List Nat} {place : Int} :
    (Literal.pointed negative ds place).negative = negative := by
  unfold Literal.pointed
  split <;> rfl

theorem floatLiteral_marked (normal : x.Normal) : (floatLiteral negative x).fraction ≠ [] ∨
    (floatLiteral negative x).exponent ≠ none := by
  rcases floatLiteral_cases negative normal with
    ⟨_, form⟩ | ⟨ds, exponent, leading, _, form | form⟩ <;> rw [form]
  · exact .inl (by simp)
  · exact .inl (pointed_fraction leading.nonempty)
  · exact .inr nofun

theorem floatLiteral_negative (normal : x.Normal) :
    (floatLiteral negative x).negative = negative := by
  rcases floatLiteral_cases negative normal with
    ⟨_, form⟩ | ⟨ds, exponent, _, _, form | form⟩ <;> rw [form]
  · exact pointed_negative
  · rfl

theorem floatLiteral_body (normal : x.Normal) : (floatLiteral negative x).body = floatChars x := by
  unfold floatLiteral floatChars
  split
  · rfl
  · next nonzero =>
    have leading := leading_trimmed (Binary64.shortest_digits_ne_zero normal nonzero)
    have trim := trimmed_map (Numeral.digits_lt (by decide) x.shortest.digits)
    simp only [Numeral.decimalChars, List.length_map, trim]
    split
    · exact pointed_body leading.nonempty
    · exact scientific_body

end Floats

theorem literal_plain {n : Number} (normal : n.Normal) : n.literal.Plain := by
  cases n with
  | integer n _ =>
    refine ⟨?_, Numeral.digits_lt (by decide) _, nofun, nofun⟩
    by_cases zero : n.natAbs = 0
    · left
      simp [literal, zero, Numeral.digits]
    · exact .inr ⟨Numeral.digits_ne_nil _ _, Numeral.head?_digits (by decide) zero⟩
  | float negative x => exact floatLiteral_plain normal

theorem chars_eq {n : Number} (normal : n.Normal) : n.chars = n.literal.chars := by
  cases n with
  | integer n _ =>
    simp [chars, literal, Literal.chars, body, fractionChars, exponentChars, Numeral.decimalChars]
  | float negative x =>
    rw [chars, literal, Literal.chars, floatLiteral_negative normal, floatLiteral_body normal]

theorem literal_integer_ne_float {n : Int} {fits : -2 ^ 63 ≤ n ∧ n < 2 ^ 64} {negative : Bool}
    {x : Binary64} (normal : x.Normal) :
    literal (integer n fits) ≠ literal (float negative x) := by
  intro same
  simp only [literal] at same
  have marked : (floatLiteral negative x).fraction ≠ [] ∨
      (floatLiteral negative x).exponent ≠ none := floatLiteral_marked normal
  rw [← same] at marked
  simp at marked

theorem literal_injective {n m : Number} (normal : n.Normal) (normal' : m.Normal)
    (same : n.literal = m.literal) : n = m := by
  cases n with
  | integer n fits =>
    cases m with
    | integer m fits' =>
      simp only [literal, Literal.mk.injEq] at same
      obtain ⟨sign, digits, _⟩ := same
      have size : n.natAbs = m.natAbs := by
        rw [← Numeral.value_digits 10 n.natAbs, digits, Numeral.value_digits]
      rw [decide_eq_decide] at sign
      have equal : n = m := by omega
      subst equal
      rfl
    | float negative x => exact absurd same (literal_integer_ne_float normal')
  | float negative x =>
    cases m with
    | integer m fits => exact absurd same.symm (literal_integer_ne_float normal)
    | float negative' y =>
      simp only [literal] at same
      have sign : negative = negative' := by
        have kept := congrArg Literal.negative same
        rwa [floatLiteral_negative normal, floatLiteral_negative normal'] at kept
      -- Both fractions are what one magnitude rounds to.
      have rounds : x.RoundsTo (floatLiteral negative x).magnitude := floatLiteral_rounds normal
      rw [same] at rounds
      have equal : x = y :=
        Binary64.eq_of_roundsTo normal normal' rounds (floatLiteral_rounds normal')
      rw [sign, equal]

end CryptoConditions.Number
