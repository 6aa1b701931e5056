import CryptoConditions.Json.Number
import CryptoConditions.Proofs.Text.Numeral
import Mathlib.Data.Option.Basic

/-! The literal of a number. Every literal that is written by its digits is scanned back from
whatever text it stands in, provided that the text does not go on like a number. -/

namespace CryptoConditions.Literal

structure Plain (l : Literal) : Prop where
  whole : l.whole = [0] ∨ (l.whole ≠ [] ∧ l.whole.head? ≠ some 0)
  wholeDigits : ∀ d ∈ l.whole, d < 10
  fractionDigits : ∀ d ∈ l.fraction, d < 10
  exponent : ∀ e ∈ l.exponent, e.2 ≠ [] ∧ ∀ d ∈ e.2, d < 10

def fractionChars (digits : List Nat) : List Char :=
  if digits.isEmpty then [] else '.' :: digits.map Numeral.digitChar

def exponentChars : Option (Bool × List Nat) → List Char
  | none => []
  | some (negative, digits) =>
    'e' :: (if negative then '-' else '+') :: digits.map Numeral.digitChar

def body (l : Literal) : List Char :=
  l.whole.map Numeral.digitChar ++ (fractionChars l.fraction ++ exponentChars l.exponent)

def chars (l : Literal) : List Char :=
  Number.signed l.negative l.body

/-- A text that does not go on like a number. -/
def Stops (rest : List Char) : Prop :=
  ∀ c ∈ rest.head?, isDigit c = false ∧ c ≠ '.' ∧ c ≠ 'e' ∧ c ≠ 'E'

theorem isDigit_digitChar {d : Nat} (small : d < 10) : isDigit (Numeral.digitChar d) = true := by
  rw [isDigit, Numeral.decimalValue?_digitChar d small]
  rfl

theorem chars_eq_cons {l : Literal} (plain : l.Plain) :
    ∃ c more, l.chars = c :: more ∧ (isDigit c = true ∨ c = '-') := by
  have nonempty : l.whole ≠ [] := by
    rcases plain.whole with zero | ⟨nonempty, _⟩
    · simp [zero]
    · exact nonempty
  obtain ⟨d, ds, whole⟩ := List.exists_cons_of_ne_nil nonempty
  have small := plain.wholeDigits d (by simp [whole])
  have form : l.body = Numeral.digitChar d :: (ds.map Numeral.digitChar ++
      (fractionChars l.fraction ++ exponentChars l.exponent)) := by
    rw [body, whole]
    rfl
  rw [chars, form]
  cases l.negative with
  | true => exact ⟨'-', _, rfl, .inr rfl⟩
  | false => exact ⟨_, _, rfl, .inl (isDigit_digitChar small)⟩

section Scanning

variable {ds : List Nat} {rest : List Char}

theorem digits_map (small : ∀ d ∈ ds, d < 10) (ends : Text.Free isDigit rest) :
    digits (ds.map Numeral.digitChar ++ rest) = (ds, rest) := by
  have all : ∀ c ∈ ds.map Numeral.digitChar, isDigit c = true :=
    List.forall_mem_map.2 fun d mem => isDigit_digitChar (small d mem)
  have values : (ds.map Numeral.digitChar).filterMap Numeral.decimalValue? = ds := by
    clear all
    induction ds with
    | nil => rfl
    | cons d ds ih =>
      rw [List.forall_mem_cons] at small
      simp [Numeral.decimalValue?_digitChar d small.1, ih small.2]
  have stop : rest.takeWhile isDigit = [] ∧ rest.dropWhile isDigit = rest := by
    cases rest with
    | nil => exact ⟨rfl, rfl⟩
    | cons c rest =>
      simp [ends c rfl]
  rw [digits, List.takeWhile_append_of_pos all, List.dropWhile_append_of_pos all, stop.1, stop.2,
    List.append_nil, values]

theorem fractionPart_chars (small : ∀ d ∈ ds, d < 10) (ends : Text.Free isDigit rest)
    (point : ∀ c ∈ rest.head?, c ≠ '.') :
    fractionPart (fractionChars ds ++ rest) = some (ds, rest) := by
  unfold fractionChars
  split
  · next empty =>
    rw [List.isEmpty_iff.1 empty, List.nil_append]
    unfold fractionPart
    split
    · exact absurd rfl (point '.' rfl)
    · rfl
  · next nonempty => simp [fractionPart, digits_map small ends, nonempty]

theorem exponentPart_chars {e : Option (Bool × List Nat)}
    (plain : ∀ written ∈ e, written.2 ≠ [] ∧ ∀ d ∈ written.2, d < 10) (stops : Stops rest) :
    exponentPart (exponentChars e ++ rest) = some (e, rest) := by
  have ends : Text.Free isDigit rest := fun c first => (stops c first).1
  cases e with
  | none =>
    cases rest with
    | nil => rfl
    | cons c rest =>
      obtain ⟨_, _, lower, upper⟩ := stops c rfl
      simp [exponentChars, exponentPart, lower, upper]
  | some written =>
    obtain ⟨negative, ds⟩ := written
    obtain ⟨nonempty, small⟩ := plain _ rfl
    cases negative <;> simp [exponentChars, exponentPart, digits_map small ends, nonempty]

theorem exponentChars_head {e : Option (Bool × List Nat)} (stops : Stops rest) :
    ∀ c ∈ (exponentChars e ++ rest).head?, isDigit c = false ∧ c ≠ '.' := by
  cases e with
  | none => exact fun c first => ⟨(stops c first).1, (stops c first).2.1⟩
  | some written =>
    intro c first
    cases first
    decide

theorem fractionChars_free (after : Text.Free isDigit rest) :
    Text.Free isDigit (fractionChars ds ++ rest) := by
  unfold fractionChars
  split
  · exact after
  · intro c first
    cases first
    rfl

theorem digitChar_ne_minus : ∀ d < 10, Numeral.digitChar d ≠ '-' := by
  decide

theorem scan_chars {l : Literal} (plain : l.Plain) (stops : Stops rest) :
    scan (l.chars ++ rest) = some (l, rest) := by
  obtain ⟨negative, ds, fs, e⟩ := l
  obtain ⟨shape, wholeSmall, fractionSmall, exponentPlain⟩ := plain
  have afterFraction : ∀ c ∈ (exponentChars e ++ rest).head?, isDigit c = false ∧ c ≠ '.' :=
    exponentChars_head stops
  have ends : Text.Free isDigit (exponentChars e ++ rest) :=
    fun c first => (afterFraction c first).1
  have after : Text.Free isDigit (fractionChars fs ++ (exponentChars e ++ rest)) :=
    fractionChars_free ends
  have whole := digits_map wholeSmall after
  have fraction := fractionPart_chars fractionSmall ends fun c first => (afterFraction c first).2
  have exponent := exponentPart_chars exponentPlain stops
  simp only at shape whole fraction exponent
  cases negative with
  | true => simp [chars, body, Number.signed, scan, whole, fraction, exponent, shape, guard]
  | false =>
    have sign (rest' : List Char) : ds.map Numeral.digitChar ++
        (fractionChars fs ++ (exponentChars e ++ rest)) ≠ '-' :: rest' := by
      cases ds with
      | nil => simp at shape
      | cons d ds =>
        intro same
        exact digitChar_ne_minus d (wholeSmall d List.mem_cons_self) (List.cons.inj same).1
    simp [chars, body, Number.signed, scan, whole, fraction, exponent, shape, guard]

end Scanning

end CryptoConditions.Literal
