import Mathlib.Algebra.Order.Ring.Int

set_option autoImplicit false

/-! ### Days of a calendar by months -/

namespace Calendars

/-- Months in a row, each by the day it starts on, and the month of each day. -/
structure Months where
  first : Int → Int
  of_ : Int → Int
  short : ∀ month, 28 ≤ first (month + 1) - first month
  long : ∀ month, first (month + 1) - first month ≤ 31
  found : ∀ day, first (of_ day) ≤ day ∧ day < first (of_ day + 1)

namespace Months

variable (calendar : Months)

def length (month : Int) : Int := calendar.first (month + 1) - calendar.first month

theorem first_add (month : Int) (n : Nat) :
    calendar.first month + 28 * n ≤ calendar.first (month + n) ∧
      calendar.first (month + n) ≤ calendar.first month + 31 * n := by
  induction n with
  | zero => simp
  | succ n ih =>
    have low := calendar.short (month + n)
    have high := calendar.long (month + n)
    have same : month + (n + 1 : Nat) = month + n + 1 := by omega
    rw [same]
    omega

theorem first_le {a b : Int} (before : a ≤ b) : calendar.first a ≤ calendar.first b := by
  have step := (calendar.first_add a (b - a).toNat).1
  have same : a + ((b - a).toNat : Nat) = b := by omega
  rw [same] at step
  omega

theorem first_far {a b : Int} (before : a ≤ b) :
    calendar.first b ≤ calendar.first a + 31 * (b - a) := by
  have step := (calendar.first_add a (b - a).toNat).2
  have same : a + ((b - a).toNat : Nat) = b := by omega
  rw [same] at step
  omega

/-- A day is of one month. -/
theorem of_eq (month day : Int) (from_ : calendar.first month ≤ day)
    (to_ : day < calendar.first (month + 1)) : calendar.of_ day = month := by
  obtain ⟨low, high⟩ := calendar.found day
  rcases Int.lt_trichotomy (calendar.of_ day) month with less | same | more
  · have later := calendar.first_le (Int.add_one_le_iff.mpr less)
    omega
  · exact same
  · have later := calendar.first_le (Int.add_one_le_iff.mpr more)
    omega

/-- `months` earlier: the day of the month kept, or the month's last. -/
def back (months day : Int) : Int :=
  let month := calendar.of_ day
  calendar.first (month - months) +
    min (day - calendar.first month) (calendar.length (month - months) - 1)

/-- The days before and after a month count for at most 31 each. -/
theorem back_near (months day : Int) :
    day - 31 * |months| ≤ calendar.back months day ∧ calendar.back months day ≤ day + 31 * |months| := by
  obtain ⟨low, high⟩ := calendar.found day
  simp only [back, length]
  generalize calendar.of_ day = month at low high
  have short := calendar.short (month - months)
  have long := calendar.long month
  rcases Int.le_total 0 months with up | down
  · rw [abs_of_nonneg up]
    have far := calendar.first_far (by omega : month - months ≤ month)
    have order := calendar.first_le (by omega : month - months ≤ month)
    refine ⟨?_, by omega⟩
    -- a day past the shorter month's end is made up for by that month's own length
    rcases Int.lt_or_eq_of_le up with some_ | none_
    · have rest := calendar.first_far (by omega : month - months + 1 ≤ month)
      omega
    · subst none_
      simp only [Int.sub_zero]
      omega
  · rw [abs_of_nonpos down]
    have far := calendar.first_far (by omega : month ≤ month - months)
    rcases Int.lt_or_eq_of_le down with some_ | none_
    · have order := calendar.first_le (by omega : month + 1 ≤ month - months)
      omega
    · subst none_
      simp only [Int.sub_zero]
      omega

/-- Two days that go back the wrong way are of one month, both past the last day of a shorter one. -/
theorem back_turns (months a b : Int) (before : a < b) (turns : calendar.back months b ≤ calendar.back months a) :
    ∃ month, calendar.length month < calendar.length (month + months) ∧
      calendar.back months a = calendar.first (month + 1) - 1 ∧
      calendar.back months b = calendar.first (month + 1) - 1 := by
  obtain ⟨lowA, highA⟩ := calendar.found a
  obtain ⟨lowB, highB⟩ := calendar.found b
  have ordered : calendar.of_ a ≤ calendar.of_ b := by
    by_contra not
    have later := calendar.first_le (by omega : calendar.of_ b + 1 ≤ calendar.of_ a)
    omega
  have shortA := calendar.short (calendar.of_ a - months)
  have shortB := calendar.short (calendar.of_ b - months)
  rcases Int.lt_or_eq_of_le ordered with less | same
  · have apart := calendar.first_le (by omega : calendar.of_ a - months + 1 ≤ calendar.of_ b - months)
    simp only [back, length] at turns
    omega
  · refine ⟨calendar.of_ a - months, ?_⟩
    simp only [back, length, ← same, Int.sub_add_cancel] at turns highB lowB ⊢
    omega

/-- Past the last day of a shorter month there is a day, and the day after it, that go back to it. -/
theorem back_last (months month : Int) (shorter : calendar.length month < calendar.length (month + months)) :
    ∃ day, calendar.back months day = calendar.first (month + 1) - 1 ∧
      calendar.back months (day + 1) = calendar.first (month + 1) - 1 := by
  have short := calendar.short month
  simp only [length] at shorter
  have of_ (d : Int) (from_ : calendar.first (month + months) ≤ d)
      (to_ : d < calendar.first (month + months + 1)) := calendar.of_eq (month + months) d from_ to_
  refine ⟨calendar.first (month + months) + (calendar.first (month + 1) - calendar.first month - 1), ?_⟩
  simp only [back, of_ _ (by omega : calendar.first (month + months) ≤ calendar.first (month + months) +
      (calendar.first (month + 1) - calendar.first month - 1)) (by omega),
    of_ _ (by omega : calendar.first (month + months) ≤ calendar.first (month + months) +
      (calendar.first (month + 1) - calendar.first month - 1) + 1) (by omega),
    Int.add_sub_cancel, length]
  omega

end Months

/-! ### The Gregorian calendar -/

/-- The days from 1970-01-01 to March 1 of a year. -/
def yearDay (year : Int) : Int := 365 * year + year / 4 - year / 100 + year / 400 - 719468

/-- The days from March 1 to the start of the months after it. -/
def monthDay (j : Int) : Int := (153 * j + 2) / 5

/-- The first day of a month, counted from March of year 0. -/
def firstDay (month : Int) : Int := yearDay (month / 12) + monthDay (month % 12)

/-- The year, from March on, a day is of. -/
def yearOf (day : Int) : Int :=
  let near := 400 * (day + 719468) / 146097
  if day < yearDay near then near - 1
  else if day < yearDay (near + 1) then near
  else near + 1

def monthOf (day : Int) : Int :=
  let year := yearOf day
  12 * year + (5 * (day - yearDay year) + 2) / 153

theorem yearOf_spec (day : Int) : yearDay (yearOf day) ≤ day ∧ day < yearDay (yearOf day + 1) := by
  simp only [yearOf]
  split
  · rename_i early
    simp only [yearDay] at early ⊢
    omega
  · split
    · omega
    · rename_i late
      simp only [yearDay] at late ⊢
      omega

theorem yearDay_next (year : Int) :
    365 ≤ yearDay (year + 1) - yearDay year ∧ yearDay (year + 1) - yearDay year ≤ 366 := by
  simp only [yearDay]
  omega

theorem firstDay_next (month : Int) :
    28 ≤ firstDay (month + 1) - firstDay month ∧ firstDay (month + 1) - firstDay month ≤ 31 := by
  have year := yearDay_next (month / 12)
  simp only [firstDay]
  by_cases last : month % 12 = 11
  · have next : (month + 1) / 12 = month / 12 + 1 := by omega
    have start : (month + 1) % 12 = 0 := by omega
    rw [next, start, last]
    simp only [monthDay]
    omega
  · have next : (month + 1) / 12 = month / 12 := by omega
    have after : (month + 1) % 12 = month % 12 + 1 := by omega
    rw [next, after]
    simp only [monthDay]
    omega

theorem monthOf_spec (day : Int) : firstDay (monthOf day) ≤ day ∧ day < firstDay (monthOf day + 1) := by
  obtain ⟨low, high⟩ := yearOf_spec day
  have year := yearDay_next (yearOf day)
  simp only [monthOf, firstDay]
  generalize yearOf day = y at low high year ⊢
  have div : (12 * y + (5 * (day - yearDay y) + 2) / 153) / 12 = y := by omega
  have mod : (12 * y + (5 * (day - yearDay y) + 2) / 153) % 12 = (5 * (day - yearDay y) + 2) / 153 := by
    omega
  rw [div, mod]
  refine ⟨by simp only [monthDay]; omega, ?_⟩
  by_cases last : (5 * (day - yearDay y) + 2) / 153 = 11
  · have next : (12 * y + (5 * (day - yearDay y) + 2) / 153 + 1) / 12 = y + 1 := by omega
    have start : (12 * y + (5 * (day - yearDay y) + 2) / 153 + 1) % 12 = 0 := by omega
    rw [next, start]
    simp only [monthDay]
    omega
  · have next : (12 * y + (5 * (day - yearDay y) + 2) / 153 + 1) / 12 = y := by omega
    have after : (12 * y + (5 * (day - yearDay y) + 2) / 153 + 1) % 12 =
        (5 * (day - yearDay y) + 2) / 153 + 1 := by omega
    rw [next, after]
    simp only [monthDay]
    omega

def gregorian : Months where
  first := firstDay
  of_ := monthOf
  short month := (firstDay_next month).1
  long month := (firstDay_next month).2
  found := monthOf_spec

/-- A month before 2026-03-31 is 2026-02-28, and so is a month before 2026-03-28. -/
example : gregorian.back 1 20543 = 20512 ∧ gregorian.back 1 20540 = 20512 := by decide

end Calendars
