import Mathlib

/-!
# The calendar

Dates of the proleptic Gregorian calendar from the year 0 on. A date is the first day after that of
the day before, and `dayNumber` counts the days.

* `dayNumber_next`: **the next day has the next number**.
* `dayNumber_injective`: a date is told by its number.
* `sum_yearLength`: the days up to the end of a year.
-/

namespace Bypass

/-! ## Years and months -/

/-- A year divisible by 4 is a leap year, unless it is divisible by 100 and not by 400. -/
def LeapYear (year : ℕ) : Prop := 4 ∣ year ∧ (¬ 100 ∣ year ∨ 400 ∣ year)

instance (year : ℕ) : Decidable (LeapYear year) := inferInstanceAs (Decidable (_ ∧ _))

def daysInMonth (year month : ℕ) : ℕ :=
  match month with
  | 1 | 3 | 5 | 7 | 8 | 10 | 12 => 31
  | 4 | 6 | 9 | 11 => 30
  | 2 => if LeapYear year then 29 else 28
  | _ => 0

theorem daysInMonth_pos {year month : ℕ} (h : 1 ≤ month) (h' : month ≤ 12) :
    1 ≤ daysInMonth year month := by
  by_cases hleap : LeapYear year <;> interval_cases month <;> simp [daysInMonth, hleap]

/-- The days of the months before one. -/
def daysBefore (year month : ℕ) : ℕ := ∑ m ∈ Finset.Ico 1 month, daysInMonth year m

def yearLength (year : ℕ) : ℕ := daysBefore year 13

theorem daysBefore_succ {year month : ℕ} (h : 1 ≤ month) :
    daysBefore year (month + 1) = daysBefore year month + daysInMonth year month :=
  Finset.sum_Ico_succ_top h _

theorem daysBefore_mono (year : ℕ) : Monotone (daysBefore year) := fun _ _ h =>
  Finset.sum_le_sum_of_subset (Finset.Ico_subset_Ico_right h)

theorem daysBefore_eq {year month : ℕ} (h : 1 ≤ month) (h' : month ≤ 13) :
    daysBefore year month = [0, 31, 59, 90, 120, 151, 181, 212, 243, 273, 304, 334, 365].getD
      (month - 1) 0 + if 2 < month ∧ LeapYear year then 1 else 0 := by
  by_cases hleap : LeapYear year <;> interval_cases month <;>
    simp [daysBefore, Finset.sum_Ico_succ_top, daysInMonth, hleap]

theorem yearLength_eq (year : ℕ) : yearLength year = 365 + if LeapYear year then 1 else 0 := by
  rw [yearLength, daysBefore_eq (by decide) (by decide)]
  simp

/-- **The days up to the end of a year.** -/
theorem sum_yearLength (year : ℕ) : ∑ y ∈ Finset.range (year + 1), yearLength y + year / 100 =
    365 * year + year / 4 + year / 400 + 366 := by
  induction year with
  | zero => rfl
  | succ year ih =>
    rw [Finset.sum_range_succ, yearLength_eq]
    by_cases hleap : LeapYear (year + 1)
    · rw [if_pos hleap]
      unfold LeapYear at hleap
      omega
    · rw [if_neg hleap]
      unfold LeapYear at hleap
      omega

/-! ## Dates -/

/-- A date: its day is one of its month. -/
@[ext] structure Date where
  year : ℕ
  month : ℕ
  day : ℕ
  month_mem : 1 ≤ month ∧ month ≤ 12
  day_mem : 1 ≤ day ∧ day ≤ daysInMonth year month

namespace Date

/-- The day after. -/
def next (date : Date) : Date :=
  if hday : date.day < daysInMonth date.year date.month then
    ⟨date.year, date.month, date.day + 1, date.month_mem, by omega, hday⟩
  else if hmonth : date.month < 12 then
    ⟨date.year, date.month + 1, 1, ⟨by omega, hmonth⟩, le_rfl,
      daysInMonth_pos (by omega) hmonth⟩
  else ⟨date.year + 1, 1, 1, by decide, le_rfl, daysInMonth_pos le_rfl (by decide)⟩

/-- The days from the first of the year 0. -/
def dayNumber (date : Date) : ℕ :=
  ∑ y ∈ Finset.range date.year, yearLength y + daysBefore date.year date.month + (date.day - 1)

/-- **The next day has the next number.** -/
theorem dayNumber_next (date : Date) : date.next.dayNumber = date.dayNumber + 1 := by
  obtain ⟨year, month, day, ⟨hmonth, hmonth'⟩, hday, hday'⟩ := date
  rw [next]
  dsimp only
  split_ifs with hmore hmonths
  · simp only [dayNumber]
    omega
  · obtain rfl : day = daysInMonth year month := by omega
    simp only [dayNumber, daysBefore_succ hmonth]
    omega
  · obtain rfl : day = daysInMonth year month := by omega
    obtain rfl : month = 12 := by omega
    have hlast : yearLength year = daysBefore year 12 + daysInMonth year 12 :=
      daysBefore_succ hmonth
    have hfirst : daysBefore (year + 1) 1 = 0 := rfl
    simp only [dayNumber, Finset.sum_range_succ, hlast, hfirst]
    omega

/-- The number of a date lies among those of its month, -/
theorem daysBefore_day (date : Date) : daysBefore date.year date.month + (date.day - 1) <
    daysBefore date.year (date.month + 1) := by
  have hday := date.day_mem
  rw [daysBefore_succ date.month_mem.1]
  omega

/-- and of its year. -/
theorem dayNumber_lt (date : Date) :
    date.dayNumber < ∑ y ∈ Finset.range (date.year + 1), yearLength y := by
  have hmonth := date.daysBefore_day
  have hyear : daysBefore date.year (date.month + 1) ≤ yearLength date.year :=
    daysBefore_mono _ (by have := date.month_mem.2; omega)
  rw [Finset.sum_range_succ, dayNumber]
  omega

theorem year_le {d d' : Date} (h : d.dayNumber ≤ d'.dayNumber) : d.year ≤ d'.year := by
  by_contra hlt
  have hsum : ∑ y ∈ Finset.range (d'.year + 1), yearLength y ≤
      ∑ y ∈ Finset.range d.year, yearLength y :=
    Finset.sum_le_sum_of_subset (Finset.range_subset_range.2 (by omega))
  have hbefore := d'.dayNumber_lt
  rw [dayNumber] at h
  omega

/-- **A date is told by its number.** -/
theorem dayNumber_injective : Function.Injective dayNumber := by
  intro d d' h
  have hyear : d.year = d'.year := le_antisymm (year_le h.le) (year_le h.ge)
  have hcount : daysBefore d.year d.month + (d.day - 1) =
      daysBefore d.year d'.month + (d'.day - 1) := by
    rw [dayNumber, dayNumber, hyear] at h
    rw [hyear]
    omega
  have hmonth_le {a b : Date} (hy : a.year = b.year) (hab : daysBefore a.year a.month + (a.day - 1) =
      daysBefore a.year b.month + (b.day - 1)) : a.month ≤ b.month := by
    by_contra hlt
    have hmono : daysBefore a.year (b.month + 1) ≤ daysBefore a.year a.month :=
      daysBefore_mono _ (by omega)
    have hbefore := b.daysBefore_day
    rw [← hy] at hbefore
    omega
  have hmonth : d.month = d'.month :=
    le_antisymm (hmonth_le hyear hcount) (hmonth_le hyear.symm (by rw [← hyear]; exact hcount.symm))
  have hday := d.day_mem.1
  have hday' := d'.day_mem.1
  rw [hmonth] at hcount
  exact Date.ext hyear hmonth (by omega)

/-- The date that comes so many days after another is the one of this number. -/
theorem eq_iterate_next {d d' : Date} {n : ℕ} (h : d'.dayNumber = d.dayNumber + n) :
    d' = next^[n] d := by
  induction n generalizing d with
  | zero => exact dayNumber_injective h
  | succ n ih =>
    rw [Function.iterate_succ_apply]
    refine ih ?_
    rw [dayNumber_next]
    omega

end Date

end Bypass
