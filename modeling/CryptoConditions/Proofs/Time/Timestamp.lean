import CryptoConditions.Proofs.Steps
import CryptoConditions.Proofs.Text.Numeral
import CryptoConditions.Proofs.Time.Date
import CryptoConditions.Time.Timestamp

/-! The text of an instant is read as the instant. Each part of the text is followed by a
character that ends it: numbers of a fixed width by whatever comes, others by one that is no
digit. Whatever text is read, the instant is one that clocks show. -/

namespace CryptoConditions

/-- The year is in range, and only the last second of a minute may be followed by a leap second. -/
structure Instant.Valid (i : Instant) : Prop where
  inRange : i.inRange = true
  nanos : i.nanos < 2000000000
  leap : 1000000000 ≤ i.nanos → i.seconds % 60 = 59

namespace Timestamp

variable {α β : Type} {text rest : List Char}

theorem run_get_bind (next : List Char → Scan β) : (get >>= next) text = next text text := rfl

theorem run_set_bind (next : Unit → Scan β) : (set rest >>= next) text = next () rest := rfl

theorem run_blanks (free : Text.Free Text.isBlank text) : blanks text = some ((), text) := by
  have same : text.dropWhile Text.isBlank = text := by
    cases text with
    | nil => rfl
    | cons c rest => simp [free c rfl]
  change some ((), text.dropWhile Text.isBlank) = _
  rw [same]

section Digits

variable {ds : List Nat} {width : Nat}

def isDigit (c : Char) : Bool := (Numeral.decimalValue? c).isSome

theorem digits_map (small : ∀ d ∈ ds, d < 10) (within : ds.length ≤ width)
    (ends : ds.length = width ∨ Text.Free isDigit rest) :
    digits width (ds.map Numeral.digitChar ++ rest) = (ds, rest) := by
  induction ds generalizing width with
  | nil =>
    cases width with
    | zero => rfl
    | succ width =>
      rcases ends with exact_ | free
      · cases exact_
      · cases rest with
        | nil => rfl
        | cons c rest =>
          have other : Numeral.decimalValue? c = none := by simpa [isDigit] using free c rfl
          simp [digits, other]
  | cons d ds ih =>
    obtain ⟨width, rfl⟩ : ∃ less, width = less + 1 := ⟨width - 1, by simp at within; omega⟩
    rw [List.forall_mem_cons] at small
    rw [List.length_cons, Nat.add_right_cancel_iff] at ends
    have tail := ih small.2 (Nat.le_of_succ_le_succ within) ends
    simp [digits, Numeral.decimalValue?_digitChar d small.1, tail]

theorem counted_map (small : ∀ d ∈ ds, d < 10) (nonempty : ds ≠ []) (within : ds.length ≤ width)
    (ends : ds.length = width ∨ Text.Free isDigit rest) :
    counted width (ds.map Numeral.digitChar ++ rest) =
      some ((Numeral.value 10 ds, ds.length), rest) := by
  simp [counted, digits_map small within ends, nonempty]

theorem number_map (small : ∀ d ∈ ds, d < 10) (nonempty : ds ≠ []) (within : ds.length ≤ width)
    (ends : ds.length = width ∨ Text.Free isDigit rest) :
    number width (ds.map Numeral.digitChar ++ rest) = some (Numeral.value 10 ds, rest) := by
  rw [number, run_bind (counted_map small nonempty within ends)]
  rfl

theorem blank_digitChar : ∀ d < 10, Text.isBlank (Numeral.digitChar d) = false := by
  decide

theorem free_map (small : ∀ d ∈ ds, d < 10) (nonempty : ds ≠ []) :
    Text.Free Text.isBlank (ds.map Numeral.digitChar ++ rest) := by
  obtain ⟨d, ds, rfl⟩ := List.exists_cons_of_ne_nil nonempty
  exact Text.free_cons (blank_digitChar d (small d List.mem_cons_self))

theorem padded_digits {n : Nat} (positive : 0 < width) (fits : n < 10 ^ width) :
    ∃ ds, Numeral.paddedChars width n = ds.map Numeral.digitChar ∧ ds.length = width ∧
      (∀ d ∈ ds, d < 10) ∧ Numeral.value 10 ds = n := by
  obtain ⟨ds, written, length, small, value⟩ := Numeral.paddedChars_eq width n
  have shorter := Numeral.length_digits_le positive fits
  exact ⟨ds, written, by omega, small, value⟩

theorem number_padded {n : Nat} (positive : 0 < width) (fits : n < 10 ^ width) :
    number width (Numeral.paddedChars width n ++ rest) = some (n, rest) := by
  obtain ⟨ds, written, length, small, value⟩ := padded_digits positive fits
  have nonempty : ds ≠ [] := List.length_pos_iff.1 (by omega)
  rw [written, number_map small nonempty (by omega) (.inl length), value]

end Digits

section Fields

theorem field_padded {low high n : Nat} (least : low ≤ n) (greatest : n ≤ high)
    (fits : n < 100) : field low high (Numeral.paddedChars 2 n ++ rest) = some (n, rest) := by
  obtain ⟨ds, written, length, small, _⟩ := padded_digits (n := n) (by decide : 0 < 2) fits
  have nonempty : ds ≠ [] := List.length_pos_iff.1 (by omega)
  have free : Text.Free Text.isBlank (Numeral.paddedChars 2 n ++ rest) := by
    rw [written]
    exact free_map small nonempty
  rw [field, run_bind (run_blanks free), run_bind (number_padded (by decide) fits),
    run_bind (run_guard ⟨least, greatest⟩)]
  rfl

theorem separator_self {c : Char} (visible : Text.isBlank c = false) :
    separator c (c :: rest) = some ((), rest) := by
  have taken : next (c :: rest) = some (c, rest) := rfl
  rw [separator, run_bind (run_blanks (Text.free_cons visible)), run_bind taken]
  exact run_guard rfl

theorem number_of_year {n : Nat} (free : Text.Free isDigit rest) :
    number (Numeral.paddedChars 4 n ++ rest).length (Numeral.paddedChars 4 n ++ rest) =
      some (n, rest) := by
  obtain ⟨ds, written, length, small, value⟩ := Numeral.paddedChars_eq 4 n
  have nonempty : ds ≠ [] := List.length_pos_iff.1 (by omega)
  rw [written, number_map small nonempty (by simp) (.inr free), value]

theorem digitChar_ne_sign : ∀ d < 10, Numeral.digitChar d ≠ '-' ∧ Numeral.digitChar d ≠ '+' := by
  decide

theorem year_unsigned (visible : Text.Free Text.isBlank text) (minus : ∀ rest, text ≠ '-' :: rest)
    (plus : ∀ rest, text ≠ '+' :: rest) {n : Nat} (read : number 4 text = some (n, rest)) :
    year text = some ((n : Int), rest) := by
  rw [year, run_bind (run_blanks visible), run_get_bind]
  split
  · next same => exact absurd rfl (minus _)
  · next same => exact absurd rfl (plus _)
  · rw [run_bind read]
    rfl

theorem year_of_digits {n : Nat} (fits : n < 10000) :
    year (Numeral.paddedChars 4 n ++ rest) = some ((n : Int), rest) := by
  obtain ⟨ds, written, length, small, _⟩ := padded_digits (n := n) (by decide : 0 < 4) fits
  have nonempty : ds ≠ [] := List.length_pos_iff.1 (by omega)
  have read : number 4 (Numeral.paddedChars 4 n ++ rest) = some (n, rest) :=
    number_padded (by decide) fits
  rw [written] at read ⊢
  have visible : Text.Free Text.isBlank (ds.map Numeral.digitChar ++ rest) :=
    free_map small nonempty
  obtain ⟨d, ds, rfl⟩ := List.exists_cons_of_ne_nil nonempty
  obtain ⟨minus, plus⟩ := digitChar_ne_sign d (small d List.mem_cons_self)
  exact year_unsigned visible (fun _ same => minus (List.cons.inj same).1)
    (fun _ same => plus (List.cons.inj same).1) read

theorem year_chars (y : Int) (free : Text.Free isDigit rest) :
    year (yearChars y ++ rest) = some (y, rest) := by
  unfold yearChars
  split
  · next negative =>
    rw [List.cons_append, year, run_bind (run_blanks (Text.free_cons (by decide))), run_get_bind]
    simp only
    rw [run_set_bind, run_bind (number_of_year free)]
    have value : -(y.natAbs : Int) = y := by omega
    rw [value]
    rfl
  · split
    · next long =>
      rw [List.cons_append, year, run_bind (run_blanks (Text.free_cons (by decide))), run_get_bind]
      simp only
      rw [run_set_bind, run_bind (number_of_year free)]
      have value : (y.natAbs : Int) = y := by omega
      rw [value]
      rfl
    · next plain =>
      have value : (y.natAbs : Int) = y := by omega
      rw [year_of_digits (by omega), value]

theorem date_chars {d : Date} (month : 1 ≤ d.month ∧ d.month ≤ 12) (day : 1 ≤ d.day ∧ d.day ≤ 31) :
    date (yearChars d.year ++ '-' :: (Numeral.paddedChars 2 d.month ++
      '-' :: (Numeral.paddedChars 2 d.day ++ rest))) = some (d, rest) := by
  have minus : Text.isBlank '-' = false := by decide
  have free {rest : List Char} : Text.Free isDigit ('-' :: rest) := Text.free_cons rfl
  rw [date, run_bind (year_chars d.year free), run_bind (separator_self minus),
    run_bind (field_padded month.1 month.2 (by omega)), run_bind (separator_self minus),
    run_bind (field_padded day.1 day.2 (by omega))]
  rfl

theorem fraction_point {width n : Nat} (positive : 0 < width) (within : width ≤ 9)
    (fits : n < 10 ^ width) :
    fraction ('.' :: Numeral.paddedChars width n ++ 'Z' :: rest) =
      some (n * 10 ^ (9 - width), 'Z' :: rest) := by
  obtain ⟨ds, written, length, small, value⟩ := padded_digits positive fits
  have nonempty : ds ≠ [] := List.length_pos_iff.1 (by omega)
  have ends : Text.Free isDigit ('Z' :: rest) := Text.free_cons rfl
  have read := counted_map small nonempty (by omega : ds.length ≤ 9) (.inr ends)
  rw [written, List.cons_append, fraction, run_get_bind]
  simp only
  rw [run_set_bind, run_bind read, value, length]
  rfl

theorem fraction_decimals {nanos : Nat} (small : nanos < 1000000000) :
    fraction (decimals nanos ++ 'Z' :: rest) = some (nanos, 'Z' :: rest) := by
  unfold decimals
  split
  · next zero =>
    rw [zero]
    rfl
  split
  · next thousands =>
    have value : nanos / 1000000 * 10 ^ (9 - 3) = nanos := by omega
    rw [fraction_point (by decide) (by decide) (by omega), value]
  split
  · next units =>
    have value : nanos / 1000 * 10 ^ (9 - 6) = nanos := by omega
    rw [fraction_point (by decide) (by decide) (by omega), value]
  · rw [fraction_point (by decide) (by decide) small, Nat.sub_self, Nat.pow_zero, Nat.mul_one]

end Fields

theorem offset_utc : offset ['Z'] = some (0, []) := rfl

theorem instant_chars {i : Instant} (valid : i.Valid) : instant (chars i) = some (i, []) := by
  have month := Date.month_ofDays (i.seconds / 86400)
  have day := Date.day_ofDays (i.seconds / 86400)
  have days := Date.toDays_ofDays (i.seconds / 86400)
  have range := valid.inRange
  have nanos := valid.nanos
  have leap := valid.leap
  simp only [Instant.inRange, Bool.and_eq_true, decide_eq_true_eq] at range
  have seconds : ((i.seconds % 86400).toNat : Int) = i.seconds % 86400 := by omega
  generalize dated : Date.ofDays (i.seconds / 86400) = date at *
  generalize timed : (i.seconds % 86400).toNat = time at *
  -- A leap second is counted in the nanoseconds of the second before it.
  have late : i.nanos / 1000000000 = 1 → time % 60 = 59 := by omega
  have upTo : i.nanos / 1000000000 ≤ 1 := by omega
  have long : date.day ≤ 31 := by
    have most : Date.daysInMonth date.year date.month ≤ 31 := by
      unfold Date.daysInMonth
      split
      · split <;> omega
      · split <;> omega
    omega
  have colon : Text.isBlank ':' = false := by decide
  have zone : Text.Free Text.isBlank ['Z'] := Text.free_cons (by decide)
  have taken {rest : List Char} : next ('T' :: rest) = some ('T', rest) := rfl
  rw [chars, dated, timed]
  simp only [List.append_assoc, List.cons_append]
  rw [instant, run_bind (date_chars month ⟨day.1, long⟩), run_bind (run_guard range),
    run_bind (run_guard day.2), run_bind taken, run_bind (run_guard (by decide)),
    run_bind (field_padded (by omega) (by omega) (by omega)),
    run_bind (separator_self colon),
    run_bind (field_padded (by omega) (by omega) (by omega)),
    run_bind (separator_self colon),
    run_bind (field_padded (by omega) (by omega) (by omega)),
    run_bind (fraction_decimals (Nat.mod_lt _ (by decide))),
    run_bind (run_blanks zone), run_bind offset_utc, run_bind (run_blanks (by nofun))]
  have same : (⟨86400 * date.toDays + (3600 * (time / 3600) + 60 * (time / 60 % 60) +
      (time % 60 + i.nanos / 1000000000 - (time % 60 + i.nanos / 1000000000) / 60) : Nat) - 0,
      i.nanos % 1000000000 + 1000000000 * ((time % 60 + i.nanos / 1000000000) / 60)⟩ : Instant) =
      i := by
    obtain ⟨s, n⟩ := i
    simp only [Instant.mk.injEq] at *
    constructor <;> omega
  rw [same, run_bind (run_guard valid.inRange)]
  rfl

theorem parse?_format {i : Instant} (valid : i.Valid) : parse? (format i) = some i := by
  rw [parse?, format, String.toList_ofList, instant_chars valid]

section Received

theorem digits_small (width : Nat) (text : List Char) :
    (digits width text).1.length ≤ width ∧ ∀ d ∈ (digits width text).1, d < 10 := by
  fun_induction digits width text with
  | case1 => simp
  | case2 => simp
  | case3 => simp
  | case4 width c rest digit here found more same ih =>
    rw [same] at ih
    exact ⟨Nat.succ_le_succ ih.1, List.forall_mem_cons.2 ⟨Numeral.lt_of_decimalValue? here, ih.2⟩⟩

theorem field_bounds {low high n : Nat} (read : field low high text = some (n, rest)) :
    low ≤ n ∧ n ≤ high := by
  obtain ⟨_, _, _, read⟩ := run_bind_eq_some.1 read
  obtain ⟨n, _, _, read⟩ := run_bind_eq_some.1 read
  obtain ⟨bounds, read⟩ := run_guard_bind_eq_some.1 read
  cases run_pure_eq_some.1 read
  exact bounds

theorem fraction_lt {n : Nat} (read : fraction text = some (n, rest)) : n < 1000000000 := by
  rw [fraction, run_get_bind] at read
  split at read
  · next rest =>
    rw [run_set_bind] at read
    obtain ⟨⟨n, count⟩, _, number, read⟩ := run_bind_eq_some.1 read
    obtain ⟨_, _, _, last⟩ := run_bind_eq_some.1 read
    cases run_pure_eq_some.1 last
    unfold counted at number
    simp only at number
    split at number
    · cases number
    · cases number
      obtain ⟨short, small⟩ := digits_small 9 rest
      have value := Numeral.value_lt small
      calc _ < 10 ^ (digits 9 rest).1.length * 10 ^ (9 - (digits 9 rest).1.length) :=
            Nat.mul_lt_mul_of_pos_right value (by positivity)
        _ = 10 ^ 9 := by rw [← Nat.pow_add, Nat.add_sub_cancel' short]
  · cases read
    decide

def zone : Scan Int := do
  let sign ← next
  if sign = 'Z' ∨ sign = 'z' then return 0
  guard (sign = '+' ∨ sign = '-' ∨ sign = '−')
  let hours ← pair 9
  modify (List.dropWhile fun c => c == ':' || Text.isBlank c)
  let minutes ← pair 5
  guard (hours < 24)
  let seconds : Nat := 3600 * hours + 60 * minutes
  return if sign = '+' then seconds else -(seconds : Int)

theorem zone_minutes {s : Int} (read : zone text = some (s, rest)) : s % 60 = 0 := by
  obtain ⟨sign, _, _, read⟩ := run_bind_eq_some.1 read
  split at read
  · cases run_pure_eq_some.1 read
    rfl
  · obtain ⟨_, read⟩ := run_guard_bind_eq_some.1 read
    obtain ⟨hours, _, _, read⟩ := run_bind_eq_some.1 read
    obtain ⟨_, _, _, read⟩ := run_bind_eq_some.1 read
    obtain ⟨minutes, _, _, read⟩ := run_bind_eq_some.1 read
    obtain ⟨_, read⟩ := run_guard_bind_eq_some.1 read
    cases run_pure_eq_some.1 read
    split <;> omega

theorem offset_minutes {s : Int} (read : offset text = some (s, rest)) : s % 60 = 0 := by
  rw [offset, run_get_bind] at read
  split at read
  · split at read
    · cases read
      rfl
    · exact zone_minutes read
  · exact zone_minutes read

theorem valid_of_instant {i : Instant} (read : instant text = some (i, rest)) : i.Valid := by
  obtain ⟨date, _, _, read⟩ := run_bind_eq_some.1 read
  obtain ⟨_, read⟩ := run_guard_bind_eq_some.1 read
  obtain ⟨_, read⟩ := run_guard_bind_eq_some.1 read
  obtain ⟨_, _, _, read⟩ := run_bind_eq_some.1 read
  obtain ⟨_, read⟩ := run_guard_bind_eq_some.1 read
  obtain ⟨hour, _, _, read⟩ := run_bind_eq_some.1 read
  obtain ⟨_, _, _, read⟩ := run_bind_eq_some.1 read
  obtain ⟨minute, _, _, read⟩ := run_bind_eq_some.1 read
  obtain ⟨_, _, _, read⟩ := run_bind_eq_some.1 read
  obtain ⟨second, _, seconds, read⟩ := run_bind_eq_some.1 read
  obtain ⟨nanos, _, places, read⟩ := run_bind_eq_some.1 read
  obtain ⟨_, _, _, read⟩ := run_bind_eq_some.1 read
  obtain ⟨offset, _, zone, read⟩ := run_bind_eq_some.1 read
  obtain ⟨_, _, _, read⟩ := run_bind_eq_some.1 read
  obtain ⟨inRange, read⟩ := run_guard_bind_eq_some.1 read
  cases run_pure_eq_some.1 read
  have bounds := field_bounds seconds
  have small := fraction_lt places
  have minutes := offset_minutes zone
  refine ⟨inRange, by simp only; omega, fun late => ?_⟩
  have last : second = 60 := by
    simp only at late
    omega
  subst last
  simp only
  omega

theorem valid_of_parse? {text : String} {i : Instant} (read : parse? text = some i) : i.Valid := by
  unfold parse? at read
  split at read
  · next found =>
    cases read
    exact valid_of_instant found
  · cases read

end Received

end Timestamp

end CryptoConditions
