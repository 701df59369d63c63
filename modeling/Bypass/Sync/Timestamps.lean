import Bypass.Foundations.Calendar
import Bypass.Foundations.Text

/-!
# Timestamps

`format_unix_ts` of `pairing.rs` turns seconds since 1970 into a date. It counts in eras of 400
years that begin on the first of March, so that a leap day is the last of its year. Every operation
on machine integers is checked here: there is no result where one overflows, or a cast loses
something.

* `yearOfEra_eq`: the year of a day of an era, which three corrections find.
* `civilFromDays_eq`: **the date of a day**, computed without overflow.
* `timestamp_correct`: over all `u64`s, the date is that of the calendar.
-/

namespace Bypass

/-! ## Machine integers -/

/-- The value, if it is one of the type. -/
def i64 (x : ℤ) : Option ℤ := if -2 ^ 63 ≤ x ∧ x < 2 ^ 63 then some x else none

def u64 (x : ℤ) : Option ℤ := if 0 ≤ x ∧ x < 2 ^ 64 then some x else none

def u8 (x : ℤ) : Option ℤ := if 0 ≤ x ∧ x < 2 ^ 8 then some x else none

section Checks

variable {α : Type} {x : ℤ} {f : ℤ → Option α}

theorem i64_bind (h : 0 ≤ x) (h' : x < 2 ^ 63) : (i64 x >>= f) = f x := by
  rw [i64, if_pos ⟨by omega, h'⟩]
  rfl

theorem u64_bind (h : 0 ≤ x) (h' : x < 2 ^ 64) : (u64 x >>= f) = f x := by
  rw [u64, if_pos ⟨h, h'⟩]
  rfl

theorem u8_bind (h : 0 ≤ x) (h' : x < 2 ^ 8) : (u8 x >>= f) = f x := by
  rw [u8, if_pos ⟨h, h'⟩]
  rfl

end Checks

/-! ## The formatter -/

/-- `civil_from_days`: the year, the month and the day. -/
def civilFromDays (z : ℤ) : Option (ℤ × ℤ × ℤ) := do
  let z ← i64 (z + 719468)
  let num ← (if 0 ≤ z then pure z else i64 (z - 146096) : Option ℤ)
  let era ← pure (num.tdiv 146097)
  let doe ← u64 (← i64 (z - (← i64 (era * 146097))))
  let num ← u64 ((← u64 ((← u64 (doe - doe / 1460)) + doe / 36524)) - doe / 146096)
  let yoe ← pure (num / 365)
  let y ← i64 ((← i64 yoe) + (← i64 (era * 400)))
  let doy ← u64 (doe - (← u64 ((← u64 ((← u64 (365 * yoe)) + yoe / 4)) - yoe / 100)))
  let num ← u64 ((← u64 (5 * doy)) + 2)
  let mp ← pure (num / 153)
  let num ← u64 ((← u64 (153 * mp)) + 2)
  let d ← u8 (← u64 ((← u64 (doy - num / 5)) + 1))
  let m ← u8 (← (if mp < 10 then u64 (mp + 3) else u64 (mp - 9) : Option ℤ))
  let y ← i64 (y + if m ≤ 2 then 1 else 0)
  pure (y, m, d)

/-- `{:0width}` of a number. -/
def padded (width : ℕ) (n : ℤ) : Str :=
  let digits := Nat.toDigits 10 n.natAbs
  if n < 0 then '-' :: (List.replicate (width - 1 - digits.length) '0' ++ digits)
  else List.replicate (width - digits.length) '0' ++ digits

/-- `{y:04}-{m:02}-{d:02}T{hh:02}:{mm:02}:{ss:02}Z`. -/
def timestamp (y m d hh mm ss : ℤ) : Str :=
  padded 4 y ++ '-' :: padded 2 m ++ '-' :: padded 2 d ++ 'T' :: padded 2 hh ++
    ':' :: padded 2 mm ++ ':' :: padded 2 ss ++ ['Z']

/-- `format_unix_ts`. -/
def formatUnixTs (secs : UInt64) : Option Str := do
  let days ← i64 (secs / 86400).toNat
  let (y, m, d) ← civilFromDays days
  let rem := secs % 86400
  let hh := rem / 3600
  let mm := (rem % 3600) / 60
  let ss := rem % 60
  some (timestamp y m d hh.toNat mm.toNat ss.toNat)

/-! ## Days of an era -/

/-- The years of an era as centuries, leap cycles and years, and its days by these. -/
structure DayOfEra (doe yoe doy : ℤ) : Prop where
  doe_eq : doe = 365 * yoe + yoe / 4 - yoe / 100 + doy
  yoe_mem : 0 ≤ yoe ∧ yoe < 400
  doy_mem : 0 ≤ doy ∧ doy ≤ 365
  leap : doy = 365 → (yoe + 1) % 4 = 0 ∧ ((yoe + 1) % 100 ≠ 0 ∨ yoe = 399)

theorem DayOfEra.doe_mem {doe yoe doy : ℤ} (h : DayOfEra doe yoe doy) :
    0 ≤ doe ∧ doe < 146097 := by
  obtain ⟨hdoe, hyoe, hdoy, hleap⟩ := h
  omega

theorem dayOfEra_exists {doe : ℤ} (h : 0 ≤ doe) (h' : doe < 146097) :
    ∃ yoe doy, DayOfEra doe yoe doy := by
  obtain ⟨c, rest, hdoe, hc, hrest⟩ : ∃ c rest, doe = 36524 * c + rest ∧ (0 ≤ c ∧ c ≤ 3) ∧
      0 ≤ rest ∧ (rest < 36524 ∨ rest = 36524 ∧ c = 3) :=
    ⟨min (doe / 36524) 3, doe - 36524 * min (doe / 36524) 3, by omega, by omega, by omega⟩
  obtain ⟨q, rest', hrest', hq, hrest''⟩ : ∃ q rest', rest = 1461 * q + rest' ∧
      (0 ≤ q ∧ q ≤ 24) ∧ 0 ≤ rest' ∧ rest' < 1461 :=
    ⟨rest / 1461, rest % 1461, by omega, by omega, by omega⟩
  obtain ⟨r, doy, hyear, hr, hdoy⟩ : ∃ r doy, rest' = 365 * r + doy ∧ (0 ≤ r ∧ r ≤ 3) ∧
      0 ≤ doy ∧ (doy < 365 ∨ doy = 365 ∧ r = 3) :=
    ⟨min (rest' / 365) 3, rest' - 365 * min (rest' / 365) 3, by omega, by omega, by omega⟩
  refine ⟨100 * c + 4 * q + r, doy, ?_, ?_, ?_, ?_⟩
  · omega
  · omega
  · omega
  · omega

/-- **The year of a day of an era.** -/
theorem yearOfEra_eq {doe yoe doy : ℤ} (h : DayOfEra doe yoe doy) :
    (doe - doe / 1460 + doe / 36524 - doe / 146096) / 365 = yoe := by
  obtain ⟨hdoe, hyoe, hdoy, hleap⟩ := h
  obtain ⟨c, q, r, rfl, hc, hq, hr⟩ : ∃ c q r, yoe = 100 * c + 4 * q + r ∧ (0 ≤ c ∧ c ≤ 3) ∧
      (0 ≤ q ∧ q ≤ 24) ∧ 0 ≤ r ∧ r ≤ 3 :=
    ⟨yoe / 100, yoe % 100 / 4, yoe % 4, by omega, by omega, by omega, by omega⟩
  have hdays : doe = 36524 * c + 1461 * q + 365 * r + doy := by omega
  have hlast : doy = 365 → r = 3 ∧ (q < 24 ∨ c = 3) := by omega
  clear hdoe hleap hyoe
  -- the last day of an era would count as a fifth century
  have hcenturies : doe / 36524 - doe / 146096 = c := by
    by_cases hend : doe = 146096
    · subst hend
      omega
    · have hfifth : doe / 146096 = 0 := by omega
      have hcentury : doe / 36524 = c := by omega
      rw [hfifth, hcentury, sub_zero]
  -- a leap day counts with the next cycle
  have hcycles : doe / 1460 = 25 * c + q ∧ doy < 365 ∨
      doe / 1460 = 25 * c + q + 1 ∧ r = 3 ∧ 0 < doy := by
    by_cases hcarry : 24 * c + q + 365 * r + doy < 1460
    · exact Or.inl ⟨by omega, by omega⟩
    · exact Or.inr ⟨by omega, by omega, by omega⟩
  omega

/-! ## The date of a day -/

/-- A day and a month of a year that begins in March. -/
def monthOf (mp : ℤ) : ℤ := if mp < 10 then mp + 3 else mp - 9

/-- **The date of a day**, computed without overflow. -/
theorem civilFromDays_eq {z era doe yoe doy mp : ℤ} (hz : z + 719468 = 146097 * era + doe)
    (hera : 0 ≤ era ∧ era < 2 ^ 40) (h : DayOfEra doe yoe doy) (hmp : mp = (5 * doy + 2) / 153) :
    civilFromDays z = some (yoe + era * 400 + (if monthOf mp ≤ 2 then 1 else 0), monthOf mp,
      doy - (153 * mp + 2) / 5 + 1) := by
  obtain ⟨hyoe₀, hyoe₁⟩ := h.yoe_mem
  obtain ⟨hdoy₀, hdoy₁⟩ := h.doy_mem
  obtain ⟨hera₀, hera₁⟩ := hera
  have hdoe : 0 ≤ doe ∧ doe < 146097 := h.doe_mem
  have hmp₁ : 0 ≤ mp ∧ mp ≤ 11 := by omega
  have hmonth {f : ℤ → Option (ℤ × ℤ × ℤ)} :
      ((if mp < 10 then u64 (mp + 3) else u64 (mp - 9)) >>= f) = f (monthOf mp) := by
    rw [monthOf]
    split_ifs
    · exact u64_bind (by omega) (by omega)
    · exact u64_bind (by omega) (by omega)
  have hmonth₁ : 1 ≤ monthOf mp ∧ monthOf mp ≤ 12 := by
    rw [monthOf]
    split_ifs <;> omega
  have hsign : 0 ≤ z + 719468 := by omega
  have hdiv : (z + 719468).tdiv 146097 = era := by
    rw [Int.tdiv_eq_ediv_of_nonneg hsign]
    omega
  have hsub : z + 719468 - era * 146097 = doe := by omega
  have hdoy : doe - (365 * yoe + yoe / 4 - yoe / 100) = doy := by
    have hdoe_eq := h.doe_eq
    omega
  rw [civilFromDays, i64_bind, if_pos hsign, pure_bind, hdiv, pure_bind, i64_bind, hsub, i64_bind,
    u64_bind, u64_bind, u64_bind, u64_bind, yearOfEra_eq h, pure_bind, i64_bind, i64_bind, i64_bind,
    u64_bind, u64_bind, u64_bind, hdoy, u64_bind, u64_bind, u64_bind, ← hmp, pure_bind, u64_bind,
    u64_bind, u64_bind, u64_bind, u8_bind, hmonth, u8_bind, i64_bind]
  · rfl
  all_goals omega

/-- The days of a year that begins in March, in the calendar: up to December they follow the first
59 days of the year, -/
theorem month_of_doy {doy mp : ℤ} (hdoy : 0 ≤ doy ∧ doy ≤ 365) (hmp : mp = (5 * doy + 2) / 153)
    (hlt : mp < 10) (year : ℕ) : ∃ m d : ℕ, monthOf mp = m ∧ doy - (153 * mp + 2) / 5 + 1 = d ∧
      (2 < m ∧ m ≤ 12) ∧ (1 ≤ d ∧ d ≤ daysInMonth year m) ∧
        (daysBefore year m + (d - 1 : ℕ) : ℤ) = doy + 59 + if LeapYear year then 1 else 0 := by
  have hmp₀ : 0 ≤ mp := by omega
  refine ⟨(monthOf mp).toNat, (doy - (153 * mp + 2) / 5 + 1).toNat, ?_⟩
  interval_cases mp <;> rw [daysBefore_eq (by decide) (by decide)] <;>
    simp [monthOf, daysInMonth] <;> omega

/-- and January and February, which may end with a leap day, belong to the next. -/
theorem month_of_doy_late {doy mp : ℤ} (hdoy : 0 ≤ doy ∧ doy ≤ 365)
    (hmp : mp = (5 * doy + 2) / 153) (hge : 10 ≤ mp) {year : ℕ} (hleap : doy = 365 → LeapYear year) :
    ∃ m d : ℕ, monthOf mp = m ∧ doy - (153 * mp + 2) / 5 + 1 = d ∧ (1 ≤ m ∧ m ≤ 2) ∧
      (1 ≤ d ∧ d ≤ daysInMonth year m) ∧
        (daysBefore year m + (d - 1 : ℕ) : ℤ) = doy - 306 := by
  have hmp₁ : mp ≤ 11 := by omega
  refine ⟨(monthOf mp).toNat, (doy - (153 * mp + 2) / 5 + 1).toNat, ?_⟩
  obtain rfl | rfl : mp = 10 ∨ mp = 11 := by omega
  · rw [daysBefore_eq (by decide) (by decide)]
    simp [monthOf, daysInMonth]
    omega
  · rw [daysBefore_eq (by decide) (by decide)]
    by_cases hfeb : LeapYear year
    · simp [monthOf, daysInMonth, hfeb]
      omega
    · have hlast : doy ≠ 365 := fun h => hfeb (hleap h)
      simp [monthOf, daysInMonth, hfeb]
      omega

theorem january_mem : 1 ≤ 1 ∧ 1 ≤ 12 := by decide

theorem new_year_mem : 1 ≤ 1 ∧ 1 ≤ daysInMonth 1970 1 := by decide

/-- The first of January 1970. -/
def epoch : Date := ⟨1970, 1, 1, january_mem, new_year_mem⟩

theorem dayNumber_new_year {date : Date} {y : ℕ} (hyear : date.year = y + 1)
    (hmonth : date.month = 1) (hday : date.day = 1) :
    date.dayNumber = 365 * y + y / 4 + y / 400 + 366 - y / 100 := by
  have hsum := sum_yearLength y
  have hnone : daysBefore (y + 1) 1 = 0 := rfl
  rw [Date.dayNumber, hyear, hmonth, hday, hnone]
  omega

theorem dayNumber_epoch : epoch.dayNumber = 719528 :=
  dayNumber_new_year (y := 1969) rfl rfl rfl

/-- **The date of a day** is that of the calendar. -/
theorem civilFromDays_date {n : ℕ} (h : n < 2 ^ 50) : ∃ date : Date,
    civilFromDays n = some (↑date.year, ↑date.month, ↑date.day) ∧
      date.dayNumber = epoch.dayNumber + n := by
  obtain ⟨era, doe, hz, hera, hdoe⟩ : ∃ era doe, (n : ℤ) + 719468 = 146097 * era + doe ∧
      (0 ≤ era ∧ era < 2 ^ 40) ∧ 0 ≤ doe ∧ doe < 146097 :=
    ⟨(n + 719468) / 146097, (n + 719468) % 146097, by omega, by omega, by omega⟩
  obtain ⟨yoe, doy, hday⟩ := dayOfEra_exists hdoe.1 hdoe.2
  have hcivil := civilFromDays_eq hz hera hday rfl
  obtain ⟨hdoe_eq, hyoe, hdoy, hlast⟩ := hday
  obtain ⟨Y, hY⟩ : ∃ Y : ℕ, yoe + era * 400 = Y := ⟨(yoe + era * 400).toNat, by omega⟩
  rw [hY] at hcivil
  rw [dayNumber_epoch]
  have hyears := sum_yearLength Y
  have hfour : ((Y / 4 : ℕ) : ℤ) = yoe / 4 + 100 * era := by omega
  have hhundred : ((Y / 100 : ℕ) : ℤ) = yoe / 100 + 4 * era := by omega
  have hera_years : ((Y / 400 : ℕ) : ℤ) = era := by omega
  by_cases hmp : (5 * doy + 2) / 153 < 10
  · obtain ⟨m, d, hm, hd, hmonth, hday, hcount⟩ := month_of_doy hdoy rfl hmp Y
    refine ⟨⟨Y, m, d, ⟨by omega, hmonth.2⟩, hday⟩, ?_, ?_⟩
    · rw [hcivil, hm, hd, if_neg (by omega), add_zero]
    · rw [Finset.sum_range_succ, yearLength_eq] at hyears
      simp only [Date.dayNumber]
      by_cases hleap : LeapYear Y
      · rw [if_pos hleap] at hcount hyears
        omega
      · rw [if_neg hleap] at hcount hyears
        omega
  · have hleap : doy = 365 → LeapYear (Y + 1) := by
      unfold LeapYear
      omega
    obtain ⟨m, d, hm, hd, hmonth, hday, hcount⟩ := month_of_doy_late hdoy rfl (by omega) hleap
    refine ⟨⟨Y + 1, m, d, ⟨hmonth.1, by omega⟩, hday⟩, ?_, ?_⟩
    · rw [hcivil, hm, hd, if_pos (by omega)]
      rfl
    · simp only [Date.dayNumber]
      omega

example : civilFromDays 11016 = some (2000, 2, 29) := by decide

/-- **Timestamps are dates of the calendar.** For every number of seconds there is a timestamp,
which is computed without overflow or loss. Its date is the one that comes as many days after the
first of January 1970 as there are in these seconds. -/
theorem timestamp_correct (secs : UInt64) : ∃ date : Date,
    formatUnixTs secs = some (timestamp date.year date.month date.day
      (secs.toNat % 86400 / 3600 : ℕ) (secs.toNat % 86400 % 3600 / 60 : ℕ)
      (secs.toNat % 86400 % 60 : ℕ)) ∧
    civilFromDays (secs.toNat / 86400 : ℕ) = some (↑date.year, ↑date.month, ↑date.day) ∧
    date = Date.next^[secs.toNat / 86400] epoch ∧
    date.dayNumber = epoch.dayNumber + secs.toNat / 86400 := by
  have hsecs : secs.toNat / 86400 < 2 ^ 50 := by
    have hlt := secs.toNat_lt
    omega
  obtain ⟨date, hcivil, hcount⟩ := civilFromDays_date hsecs
  refine ⟨date, ?_, hcivil, Date.eq_iterate_next hcount, hcount⟩
  have hdays : (secs / 86400).toNat = secs.toNat / 86400 := UInt64.toNat_div _ _
  rw [formatUnixTs, hdays, i64_bind (by omega) (by omega), hcivil]
  simp [UInt64.toNat_div, UInt64.toNat_mod]

end Bypass
