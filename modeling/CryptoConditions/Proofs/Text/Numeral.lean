import Mathlib.Data.List.Induction
import CryptoConditions.Text.Numeral
import CryptoConditions.Text.Split

/-! A numeral spells the number that it was written from, in any base up to
sixteen; fields that hold no separator are told apart by separators. -/

namespace CryptoConditions.Numeral

theorem value_append (base : Nat) (ds : List Nat) (d : Nat) :
    value base (ds ++ [d]) = value base ds * base + d := by
  simp [value]

theorem value_append_zeros (base : Nat) (ds : List Nat) (count : Nat) :
    value base (ds ++ List.replicate count 0) = value base ds * base ^ count := by
  induction count with
  | zero => simp
  | succ count ih =>
    rw [List.replicate_succ', ← List.append_assoc, value_append, ih, Nat.pow_succ, Nat.add_zero,
      Nat.mul_assoc]

theorem value_zeros_append (base : Nat) (ds : List Nat) (count : Nat) :
    value base (List.replicate count 0 ++ ds) = value base ds := by
  have zeros : (List.replicate count 0).foldl (fun n digit => n * base + digit) 0 = 0 := by
    induction count with
    | zero => rfl
    | succ count ih => simpa [List.replicate_succ] using ih
  rw [value, List.foldl_append, zeros, value]

theorem value_digits (base n : Nat) : value base (digits base n) = n := by
  fun_induction digits base n with
  | case1 n small => simp [value]
  | case2 n large ih =>
    rw [value_append, ih, Nat.mul_comm]
    exact Nat.div_add_mod n base

theorem digits_lt {base : Nat} (two_le : 2 ≤ base) (n : Nat) : ∀ d ∈ digits base n, d < base := by
  fun_induction digits base n with
  | case1 n small =>
    simp only [List.mem_singleton, forall_eq]
    omega
  | case2 n large ih =>
    intro d mem
    rcases List.mem_append.1 mem with mem | mem
    · exact ih d mem
    · rw [List.mem_singleton.1 mem]
      exact Nat.mod_lt n (by omega)

theorem digits_ne_nil (base n : Nat) : digits base n ≠ [] := by
  rw [digits]
  split <;> simp

theorem head?_append_ne {ds more : List Nat} {d : Nat} (nonempty : ds ≠ [])
    (head : ds.head? ≠ some d) : (ds ++ more).head? ≠ some d := by
  obtain ⟨first, rest, rfl⟩ := List.exists_cons_of_ne_nil nonempty
  exact head

theorem head?_digits {base n : Nat} (two_le : 2 ≤ base) (nonzero : n ≠ 0) :
    (digits base n).head? ≠ some 0 := by
  fun_induction digits base n with
  | case1 n small => simpa using nonzero
  | case2 n large ih =>
    have quotient : n / base ≠ 0 := Nat.ne_of_gt (Nat.div_pos (by omega) (by omega))
    exact head?_append_ne (digits_ne_nil _ _) (ih quotient)

theorem value_pos {base d : Nat} (positive : 0 < base) (leading : d ≠ 0) (ds : List Nat) :
    0 < value base (d :: ds) := by
  induction ds using List.reverseRecOn with
  | nil =>
    have single : value base [d] = d := by simp [value]
    rw [single]
    exact Nat.pos_of_ne_zero leading
  | append_singleton ds e ih =>
    rw [← List.cons_append, value_append]
    exact Nat.add_pos_left (Nat.mul_pos ih positive) e

theorem digits_value {base d : Nat} {ds : List Nat} (two_le : 2 ≤ base) (leading : d ≠ 0)
    (small : ∀ e ∈ d :: ds, e < base) : digits base (value base (d :: ds)) = d :: ds := by
  induction ds using List.reverseRecOn with
  | nil =>
    have single : value base [d] = d := by simp [value]
    rw [single, digits, if_pos (Or.inr (List.forall_mem_singleton.1 small))]
  | append_singleton ds e ih =>
    rw [← List.cons_append, List.forall_mem_append, List.forall_mem_singleton] at small
    have front := ih small.1
    have wide : base ≤ value base (d :: ds) * base :=
      Nat.le_mul_of_pos_left base (value_pos (by omega) leading ds)
    have quotient : (value base (d :: ds) * base + e) / base = value base (d :: ds) := by
      rw [Nat.mul_comm, Nat.mul_add_div (by omega), Nat.div_eq_of_lt small.2, Nat.add_zero]
    have remainder : (value base (d :: ds) * base + e) % base = e := by
      rw [Nat.mul_comm, Nat.mul_add_mod, Nat.mod_eq_of_lt small.2]
    rw [← List.cons_append, value_append, digits, if_neg (by omega), quotient, remainder, front]

theorem pow_length_digits_le {n : Nat} (nonzero : n ≠ 0) :
    10 ^ ((digits 10 n).length - 1) ≤ n := by
  fun_induction digits 10 n with
  | case1 n small =>
    simp only [List.length_singleton, Nat.sub_self, Nat.pow_zero]
    omega
  | case2 n large ih =>
    have written := List.length_pos_iff.2 (digits_ne_nil 10 (n / 10))
    have step := ih (by omega)
    have power : 10 ^ (digits 10 (n / 10)).length =
        10 ^ ((digits 10 (n / 10)).length - 1) * 10 := by
      rw [← Nat.pow_succ, Nat.succ_eq_add_one, Nat.sub_add_cancel written]
    rw [List.length_append, List.length_singleton, Nat.add_sub_cancel, power]
    omega

theorem length_digits_le {n width : Nat} (positive : 0 < width) (fits : n < 10 ^ width) :
    (digits 10 n).length ≤ width := by
  by_cases zero : n = 0
  · rw [zero, digits]
    simp
    omega
  · have lower := Nat.lt_of_le_of_lt (pow_length_digits_le zero) fits
    have shorter := (Nat.pow_lt_pow_iff_right (by decide)).1 lower
    omega

theorem value_lt {base : Nat} {ds : List Nat} (small : ∀ d ∈ ds, d < base) :
    value base ds < base ^ ds.length := by
  induction ds using List.reverseRecOn with
  | nil => simp [value]
  | append_singleton ds d ih =>
    rw [List.forall_mem_append] at small
    have last : d < base := small.2 d List.mem_cons_self
    have front := ih small.1
    rw [value_append, List.length_append, List.length_singleton, Nat.pow_succ]
    calc value base ds * base + d < (value base ds + 1) * base := by
          rw [Nat.add_mul, Nat.one_mul]
          omega
      _ ≤ base ^ ds.length * base := Nat.mul_le_mul_right base front

theorem lt_of_decimalValue? {c : Char} {d : Nat} (read : decimalValue? c = some d) :
    d < 10 := by
  unfold decimalValue? at read
  split at read
  · next between =>
    cases read
    have last : c.toNat ≤ '9'.toNat := between.2
    have nine : '9'.toNat = 57 := rfl
    omega
  · cases read

theorem hexValue?_digitChar : ∀ d < 16, hexValue? (digitChar d) = some d := by
  decide

theorem decimalValue?_digitChar : ∀ d < 10, decimalValue? (digitChar d) = some d := by
  decide

theorem digitChar_ne : ∀ d < 16, digitChar d ≠ '+' ∧ digitChar d ≠ ':' := by
  decide

theorem paddedChars_eq (width n : Nat) : ∃ ds, paddedChars width n = ds.map digitChar ∧
    ds.length = max width (digits 10 n).length ∧ (∀ d ∈ ds, d < 10) ∧ value 10 ds = n := by
  refine ⟨List.replicate (width - (digits 10 n).length) 0 ++ digits 10 n, ?_, ?_, ?_, ?_⟩
  · have zero : digitChar 0 = '0' := rfl
    rw [paddedChars, List.map_append, List.map_replicate, zero, decimalChars, List.length_map]
  · rw [List.length_append, List.length_replicate]
    omega
  · refine List.forall_mem_append.2 ⟨fun d mem => ?_, digits_lt (by decide) n⟩
    rw [List.eq_of_mem_replicate mem]
    decide
  · rw [value_zeros_append, value_digits]

section Reading

variable {base : Nat} {digitValue? : Char → Option Nat}

theorem mapM_digitChar {bound : Nat} (reads : ∀ d < bound, digitValue? (digitChar d) = some d)
    (ds : List Nat) (small : ∀ d ∈ ds, d < bound) :
    (ds.map digitChar).mapM digitValue? = some ds := by
  induction ds with
  | nil => rfl
  | cons d rest ih =>
    rw [List.map_cons, List.mapM_cons, reads d (small d (by simp)),
      ih fun e mem => small e (by simp [mem])]
    rfl

theorem bounded?_digits {bits n : Nat} (two_le : 2 ≤ base) (le : base ≤ 16)
    (reads : ∀ d < base, digitValue? (digitChar d) = some d) (fits : n < 2 ^ bits) :
    bounded? bits base digitValue? ((digits base n).map digitChar) = some n := by
  have small := digits_lt two_le n
  have spelled : unsigned? base digitValue? ((digits base n).map digitChar) = some n := by
    rw [unsigned?, if_neg (by simp [digits_ne_nil]), mapM_digitChar reads _ small]
    simp [value_digits]
  obtain ⟨d, rest, shape⟩ := List.exists_cons_of_ne_nil (digits_ne_nil base n)
  have sign : digitChar d ≠ '+' := (digitChar_ne d (by have := small d (by simp [shape]); omega)).1
  rw [shape, List.map_cons] at spelled ⊢
  unfold bounded?
  split
  · next same => exact absurd (List.cons.inj same).1 sign
  · simp [spelled, fits]

end Reading

theorem bounded?_hexChars {n : Nat} (fits : n < 2 ^ 64) :
    bounded? 64 16 hexValue? (hexChars n) = some n :=
  bounded?_digits (by decide) (by decide) hexValue?_digitChar fits

theorem bounded?_decimalChars {n : Nat} (fits : n < 2 ^ 64) :
    bounded? 64 10 decimalValue? (decimalChars n) = some n :=
  bounded?_digits (by decide) (by decide) decimalValue?_digitChar fits

theorem colon_notMem_hexChars (n : Nat) : ':' ∉ hexChars n := by
  intro mem
  obtain ⟨d, inside, same⟩ := List.mem_map.1 mem
  exact (digitChar_ne d (digits_lt (by decide) n d inside)).2 same

theorem lt_of_bounded? {bits base n : Nat} {digitValue? : Char → Option Nat} {chars : List Char}
    (read : bounded? bits base digitValue? chars = some n) : n < 2 ^ bits := by
  obtain ⟨m, _, kept⟩ := Option.bind_eq_some_iff.1 read
  split at kept
  · next small =>
    cases kept
    exact small
  · cases kept

theorem colon_notMem_decimalChars (n : Nat) : ':' ∉ decimalChars n := by
  intro mem
  obtain ⟨d, inside, same⟩ := List.mem_map.1 mem
  exact (digitChar_ne d (Nat.lt_trans (digits_lt (by decide) n d inside) (by decide))).2 same

end CryptoConditions.Numeral

namespace CryptoConditions.Text

theorem split_of_notMem {separator : Char} {field : List Char} (free : separator ∉ field) :
    split separator field = [field] := by
  induction field with
  | nil => rfl
  | cons c rest ih =>
    simp only [List.mem_cons, not_or] at free
    rw [split, if_neg (Ne.symm free.1), ih free.2]

theorem split_append {separator : Char} {field : List Char} (free : separator ∉ field)
    (rest : List Char) :
    split separator (field ++ separator :: rest) = field :: split separator rest := by
  induction field with
  | nil => simp [split]
  | cons c more ih =>
    simp only [List.mem_cons, not_or] at free
    rw [List.cons_append, split, if_neg (Ne.symm free.1), ih free.2]

theorem split_ne_nil (separator : Char) (chars : List Char) : split separator chars ≠ [] := by
  cases chars with
  | nil => simp [split]
  | cons c rest =>
    rw [split]
    split
    · simp
    · split <;> simp

theorem eq_of_split {separator : Char} {chars field : List Char} {fields : List (List Char)}
    (parts : split separator chars = field :: fields) :
    chars = field ++ fields.flatMap (separator :: ·) := by
  induction chars generalizing field fields with
  | nil =>
    cases parts
    rfl
  | cons c rest ih =>
    obtain ⟨next, others, tail⟩ := List.exists_cons_of_ne_nil (split_ne_nil separator rest)
    rw [split, tail] at parts
    split at parts
    · next same =>
      cases parts
      simp [same, ← ih tail]
    · cases parts
      simp [← ih tail]

/-- The first character, if there is one, is not one of these. -/
def Free (p : Char → Bool) (text : List Char) : Prop :=
  ∀ c ∈ text.head?, p c = false

theorem free_cons {p : Char → Bool} {c : Char} {rest : List Char} (other : p c = false) :
    Free p (c :: rest) := by
  rintro _ ⟨⟩
  exact other

end CryptoConditions.Text
