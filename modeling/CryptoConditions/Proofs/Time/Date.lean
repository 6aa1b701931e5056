import Mathlib.Tactic.IntervalCases
import CryptoConditions.Time.Instant

/-! Days and dates. Every day has a date, which exists in the calendar, and counting to the date
comes to the day again. Within an era of 400 years the year of a day never goes back, so it is
enough to look at the days on which a year starts and ends. -/

namespace CryptoConditions.Date

/-- Days of an era before one of its years; years start with March. -/
def startOf (year : Nat) : Nat := 365 * year + year / 4 - year / 100 + year / 400

def yearOf (day : Nat) : Nat := (day - day / 1460 + day / 36524 - day / 146096) / 365

theorem yearOf_mono {a b : Nat} (le : a ≤ b) : yearOf a ≤ yearOf b := by
  have fourYears : a - a / 1460 ≤ b - b / 1460 := by omega
  have centuries : a / 36524 - a / 146096 ≤ b / 36524 - b / 146096 := by omega
  apply Nat.div_le_div_right
  omega

theorem yearOf_ends : ∀ year < 400,
    yearOf (startOf year) = year ∧ yearOf (startOf (year + 1) - 1) = year := by
  decide +kernel

theorem length_of_year : ∀ year < 400, startOf (year + 1) ≤ startOf year +
    if (year + 1) % 4 = 0 ∧ ((year + 1) % 100 ≠ 0 ∨ (year + 1) % 400 = 0) then 366 else 365 := by
  decide +kernel

theorem yearOf_spec {day : Nat} (inside : day < 146097) : yearOf day < 400 ∧
    startOf (yearOf day) ≤ day ∧ day < startOf (yearOf day + 1) := by
  have small : yearOf day < 400 := by
    have last : yearOf 146096 = 399 := by decide
    have le := yearOf_mono (Nat.le_of_lt_succ inside)
    omega
  refine ⟨small, ?_, ?_⟩
  · by_contra before
    cases year : yearOf day with
    | zero => simp [year, startOf] at before
    | succ previous =>
      have le : yearOf day ≤ yearOf (startOf (previous + 1) - 1) := yearOf_mono (by
        rw [year] at before
        omega)
      rw [(yearOf_ends previous (by omega)).2] at le
      omega
  · by_contra after
    have next : yearOf day + 1 < 400 := by
      by_contra last
      have century : yearOf day + 1 = 400 := by omega
      rw [century] at after
      exact after inside
    have le := yearOf_mono (Nat.not_lt.1 after)
    rw [(yearOf_ends _ next).1] at le
    omega

theorem month_spec {day month : Nat} (inside : day ≤ 365) (is : month = (5 * day + 2) / 153) :
    (153 * month + 2) / 5 ≤ day ∧ day < (153 * (month + 1) + 2) / 5 ∧ month ≤ 11 := by
  omega

/-- The parts of a day: the era, and the year, month and day in a calendar that starts with
March. -/
structure Parts (days era : Int) (year month day : Nat) : Prop where
  years : year < 400
  months : month ≤ 11
  inYear : day < startOf (year + 1) - startOf year
  first : (153 * month + 2) / 5 ≤ day
  last : day < (153 * (month + 1) + 2) / 5
  sum : days = 146097 * era + startOf year + day - 719468

theorem ofDays_parts (days : Int) : ∃ era year month day, Parts days era year month day ∧
    ofDays days = if month < 10 then ⟨400 * era + year, month + 3, day - (153 * month + 2) / 5 + 1⟩
      else ⟨400 * era + year + 1, month - 9, day - (153 * month + 2) / 5 + 1⟩ := by
  have inside : ((days + 719468) % 146097).toNat < 146097 := by omega
  have whole : (((days + 719468) % 146097).toNat : Int) = (days + 719468) % 146097 := by omega
  have folded : ofDays days =
      let era := (days + 719468) / 146097
      let dayOfEra := ((days + 719468) % 146097).toNat
      let year := yearOf dayOfEra
      let day := dayOfEra - (365 * year + year / 4 - year / 100)
      let month := (5 * day + 2) / 153
      if month < 10 then ⟨400 * era + year, month + 3, day - (153 * month + 2) / 5 + 1⟩
      else ⟨400 * era + year + 1, month - 9, day - (153 * month + 2) / 5 + 1⟩ := rfl
  -- The day in its era comes apart into year and day, and this day into month and day.
  generalize ((days + 719468) % 146097).toNat = dayOfEra at inside whole folded
  obtain ⟨small, after, before⟩ := yearOf_spec inside
  dsimp only at folded
  generalize yearOf dayOfEra = year at small after before folded
  have start : 365 * year + year / 4 - year / 100 = startOf year := by
    rw [startOf, Nat.div_eq_of_lt small, Nat.add_zero]
  have length := length_of_year year small
  have within : dayOfEra - startOf year ≤ 365 := by
    split at length <;> omega
  obtain ⟨first, last, month⟩ := month_spec within rfl
  refine ⟨(days + 719468) / 146097, year, _, dayOfEra - startOf year,
    ⟨small, month, by omega, first, last, by omega⟩, ?_⟩
  rw [folded]
  simp only [start]

theorem toDays_ofDays (days : Int) : (ofDays days).toDays = days := by
  obtain ⟨era, year, month, day, parts, date⟩ := ofDays_parts days
  have small := parts.years
  have sum := parts.sum
  have first := parts.first
  have last := parts.months
  rw [startOf] at sum
  rw [date]
  unfold toDays
  split
  · next early =>
    have march : ¬ month + 3 ≤ 2 := by omega
    simp only [march, if_false, Nat.add_sub_cancel]
    omega
  · next late =>
    have january : month - 9 ≤ 2 := by omega
    have back : month - 9 + 9 = month := by omega
    simp only [january, if_true, back, add_sub_cancel_right]
    omega

theorem month_ofDays (days : Int) : 1 ≤ (ofDays days).month ∧ (ofDays days).month ≤ 12 := by
  obtain ⟨era, year, month, day, parts, date⟩ := ofDays_parts days
  have last := parts.months
  rw [date]
  split <;> simp only <;> omega

theorem isLeap_of_era (era : Int) (year : Nat) : isLeap (400 * era + year) = true ↔
    year % 4 = 0 ∧ (year % 100 ≠ 0 ∨ year % 400 = 0) := by
  simp only [isLeap, Bool.and_eq_true, Bool.or_eq_true, bne_iff_ne, beq_iff_eq]
  omega

theorem daysInMonth_of_march (year : Int) : ∀ month < 10,
    daysInMonth year (month + 3) = (153 * (month + 1) + 2) / 5 - (153 * month + 2) / 5 := by
  intro month early
  interval_cases month <;> rfl

theorem day_ofDays (days : Int) : 1 ≤ (ofDays days).day ∧
    (ofDays days).day ≤ daysInMonth (ofDays days).year (ofDays days).month := by
  obtain ⟨era, year, month, day, parts, date⟩ := ofDays_parts days
  have length := length_of_year year parts.years
  have inside := parts.inYear
  have first := parts.first
  have last := parts.last
  have months := parts.months
  refine ⟨by rw [date]; split <;> simp, ?_⟩
  rw [date]
  split
  · next early =>
    simp only [daysInMonth_of_march _ _ early]
    omega
  · next late =>
    by_cases january : month = 10
    · subst january
      have thirtyOne (year : Int) : daysInMonth year 1 = 31 := rfl
      simp only [thirtyOne]
      omega
    -- February ends the year, so its length is what the year has left.
    · have february : month = 11 := by omega
      subst february
      have leap := isLeap_of_era era (year + 1)
      rw [Nat.cast_add, Nat.cast_one, ← add_assoc] at leap
      simp only [daysInMonth, if_pos, leap]
      split at length
      · next long =>
        rw [if_pos long]
        omega
      · next short =>
        rw [if_neg short]
        omega

end CryptoConditions.Date
