import Mathlib.Data.Int.Notation
import Mathlib.Tactic.Common

/-! # The calendar

Days are counted from 1 January 1970, and seconds from its midnight. Years are counted from March on, so that the day
which a leap year has more is the last; `civil` gives the date of a day in the Gregorian calendar, extended to all
years, and `Date.days` the day of a date. A day has one date (`days_civil`), which is one that there is
(`valid_civil`). -/

namespace Tilbo.Lib.Calendar

/-! ### Days and dates -/

structure Date where
  year : ℤ
  month : ℕ
  day : ℕ
deriving DecidableEq, Repr

/-- A year of 366 days. -/
def IsLeap (year : ℤ) : Prop := year % 4 = 0 ∧ (year % 100 ≠ 0 ∨ year % 400 = 0)

instance (year : ℤ) : Decidable (IsLeap year) := inferInstanceAs (Decidable (_ ∧ _))

/-- The number of days of a month. -/
def daysIn (month : ℕ) (year : ℤ) : ℕ :=
  if month = 2 then if IsLeap year then 29 else 28 else 30 + (month + month / 8) % 2

/-- There is such a date. -/
def Date.Valid (d : Date) : Prop := 1 ≤ d.month ∧ d.month ≤ 12 ∧ 1 ≤ d.day ∧ d.day ≤ daysIn d.month d.year

instance (d : Date) : Decidable d.Valid := inferInstanceAs (Decidable (_ ∧ _))

/-- The month, counted from March. -/
def fromMarch (month : ℕ) : ℕ := if month ≤ 2 then month + 9 else month - 3

/-- The same the other way. -/
def toMarch (month : ℕ) : ℕ := if month < 10 then month + 3 else month - 9

/-- The days between 1 March and the first of a month that is counted from March. -/
def daysBefore (month : ℕ) : ℕ := (153 * month + 2) / 5

/-- The month, counted from March, of a day of the year. -/
def monthOf (day : ℕ) : ℕ := (5 * day + 2) / 153

/-- The year that began in March. -/
def Date.marchYear (d : Date) : ℤ := if d.month ≤ 2 then d.year - 1 else d.year

/-- The days before a year that begins in March; 1 March of the year 0 is 719468 days before 1 January 1970. -/
def daysBeforeYear (year : ℤ) : ℤ := 365 * year + year / 4 - year / 100 + year / 400 - 719468

/-- The number of the day. -/
def Date.days (d : Date) : ℤ := daysBeforeYear d.marchYear + daysBefore (fromMarch d.month) + (d.day - 1)

/-- Year and day of the year, counted from March, of a day of the 146097 days of 400 years. -/
def ofEra (day : ℕ) : ℕ × ℕ :=
  let century := min (day / 36524) 3
  let day := day - 36524 * century
  let four := day / 1461
  let day := day - 1461 * four
  let one := min (day / 365) 3
  (100 * century + 4 * four + one, day - 365 * one)

/-- The date of a day of a year that begins in March. -/
def ofMarch (year : ℤ) (day : ℕ) : Date :=
  let month := toMarch (monthOf day)
  ⟨if month ≤ 2 then year + 1 else year, month, day - daysBefore (monthOf day) + 1⟩

/-- The date of a day. -/
def civil (days : ℤ) : Date :=
  let days := days + 719468
  let (year, day) := ofEra (days % 146097).toNat
  ofMarch (400 * (days / 146097) + year) day

/-! ### Round trip -/

variable {day month : ℕ} {days year : ℤ}

/-- A day of an era is one of the 365 days of its year, or the last of a leap year. -/
theorem ofEra_spec (h : day < 146097) : (ofEra day).1 < 400 ∧
    day + (ofEra day).1 / 100 = 365 * (ofEra day).1 + (ofEra day).1 / 4 + (ofEra day).2 ∧
    ((ofEra day).2 < 365 ∨ (ofEra day).2 = 365 ∧ IsLeap ((ofEra day).1 + 1)) := by
  unfold ofEra
  dsimp only
  -- The last century of an era, and the last year of four, is a day longer.
  generalize hcentury : min (day / 36524) 3 = century
  have hday : day - 36524 * century < 36524 ∨ century = 3 ∧ day - 36524 * century = 36524 := by omega
  have hback : 36524 * century ≤ day ∧ century ≤ 3 := by omega
  generalize hrest : day - 36524 * century = rest at hday
  generalize hfour : rest / 1461 = four
  have hfour' : four ≤ 24 ∧ 1461 * four ≤ rest ∧ rest - 1461 * four < 1461 := by omega
  generalize hlast : rest - 1461 * four = last
  generalize hone : min (last / 365) 3 = one
  have hone' : one ≤ 3 ∧ 365 * one ≤ last ∧ (last - 365 * one < 365 ∨ one = 3 ∧ last = 1460) := by omega
  have hyear100 : (100 * century + 4 * four + one) / 100 = century := by omega
  have hyear4 : (100 * century + 4 * four + one) / 4 = 25 * century + four := by omega
  refine ⟨by omega, by rw [hyear100, hyear4]; omega, ?_⟩
  rcases hone'.2.2 with hshort | ⟨hthree, hlong⟩
  · exact Or.inl hshort
  · refine Or.inr ⟨by omega, ?_⟩
    unfold IsLeap
    push_cast
    omega

theorem fromMarch_toMarch (h : month < 12) : fromMarch (toMarch month) = month := by
  unfold fromMarch toMarch
  split_ifs <;> omega

theorem monthOf_lt (h : day < 366) : monthOf day < 12 := by
  unfold monthOf
  omega

theorem daysBefore_monthOf_le (day : ℕ) : daysBefore (monthOf day) ≤ day := by
  unfold daysBefore monthOf
  omega

/-- The lengths of the months, but for February. -/
theorem length_month : ∀ month < 11, toMarch month ≠ 2 ∧
    daysBefore (month + 1) = daysBefore month + (30 + (toMarch month + toMarch month / 8) % 2) := by
  decide

/-- A month has the day. -/
theorem day_le (h : day < 365 ∨ day = 365 ∧ IsLeap year) :
    day - daysBefore (monthOf day) + 1 ≤ daysIn (toMarch (monthOf day)) year := by
  have hmonth : monthOf day < 12 := monthOf_lt (by omega)
  have hnext : day < daysBefore (monthOf day + 1) := by
    unfold daysBefore monthOf
    omega
  unfold daysIn
  generalize monthOf day = m at hmonth hnext
  by_cases hlast : m = 11
  · subst hlast
    have hbefore : daysBefore 11 = 337 := by decide
    have htwo : toMarch 11 = 2 := by decide
    rw [if_pos htwo, hbefore]
    split_ifs with hleap
    · omega
    · have hshort : day < 365 := h.resolve_right fun hlong => hleap hlong.2
      omega
  · obtain ⟨hne, hlength⟩ := length_month m (by omega)
    rw [if_neg hne]
    omega

theorem days_ofMarch (h : day < 366) : (ofMarch year day).days = daysBeforeYear year + day := by
  have hyear : (ofMarch year day).marchYear = year := by
    unfold Date.marchYear ofMarch
    dsimp only
    split_ifs <;> omega
  have hmonth : fromMarch (ofMarch year day).month = monthOf day := fromMarch_toMarch (monthOf_lt h)
  have hday : (ofMarch year day).day = day - daysBefore (monthOf day) + 1 := rfl
  have hle := daysBefore_monthOf_le day
  rw [Date.days, hyear, hmonth, hday]
  omega

theorem valid_ofMarch (h : day < 365 ∨ day = 365 ∧ IsLeap (year + 1)) : (ofMarch year day).Valid := by
  have hmonth : monthOf day < 12 := monthOf_lt (by omega)
  refine ⟨?_, ?_, Nat.le_add_left 1 _, ?_⟩
  · show 1 ≤ toMarch (monthOf day)
    unfold toMarch
    split_ifs <;> omega
  · show toMarch (monthOf day) ≤ 12
    unfold toMarch
    split_ifs <;> omega
  · have hle := day_le h
    unfold ofMarch
    dsimp only
    split_ifs with hlow
    · exact hle
    · have hne : toMarch (monthOf day) ≠ 2 := by omega
      rwa [daysIn, if_neg hne] at hle ⊢

/-- What the day of an era says of the day. -/
theorem civil_spec (days : ℤ) : ∃ year day, civil days = ofMarch year day ∧ daysBeforeYear year + day = days ∧
    (day < 365 ∨ day = 365 ∧ IsLeap (year + 1)) := by
  obtain ⟨day, hday⟩ := Int.eq_ofNat_of_zero_le (Int.emod_nonneg (days + 719468) (b := 146097) (by decide))
  have hdiv : (days + 719468) % 146097 + 146097 * ((days + 719468) / 146097) = days + 719468 :=
    Int.emod_add_mul_ediv _ _
  have hlt : day < 146097 := by omega
  have hera : ((days + 719468) % 146097).toNat = day := by rw [hday, Int.toNat_natCast]
  have hcivil : civil days = ofMarch (400 * ((days + 719468) / 146097) + (ofEra day).1) (ofEra day).2 := by
    unfold civil
    dsimp only
    rw [hera]
  refine ⟨_, _, hcivil, ?_⟩
  obtain ⟨hyear, hback, hlong⟩ := ofEra_spec hlt
  generalize (days + 719468) / 146097 = n at hdiv
  generalize (ofEra day).1 = y at hyear hback hlong
  generalize (ofEra day).2 = d at hback hlong
  unfold daysBeforeYear IsLeap at *
  omega

/-- **The date of a day is that of no other.** -/
theorem days_civil (days : ℤ) : (civil days).days = days := by
  obtain ⟨year, day, hcivil, hdays, hday⟩ := civil_spec days
  rw [hcivil, days_ofMarch (by omega), hdays]

/-- The date of a day is one that there is. -/
theorem valid_civil (days : ℤ) : (civil days).Valid := by
  obtain ⟨year, day, hcivil, -, hday⟩ := civil_spec days
  rw [hcivil]
  exact valid_ofMarch hday

/-- A day that is not far from 1970 is in a year of four digits. -/
theorem year_civil (h : -700000 ≤ days ∧ days ≤ 700000) : 0 ≤ (civil days).year ∧ (civil days).year ≤ 9999 := by
  obtain ⟨year, day, hcivil, hdays, hday⟩ := civil_spec days
  have hyear : (civil days).year = year ∨ (civil days).year = year + 1 := by
    rw [hcivil]
    unfold ofMarch
    dsimp only
    split_ifs
    · exact Or.inr rfl
    · exact Or.inl rfl
  unfold daysBeforeYear at hdays
  omega

/-! ### Times of day -/

/-- A date and a time of day. -/
structure DateTime where
  date : Date
  hour : ℕ
  minute : ℕ
  second : ℕ
deriving DecidableEq, Repr

/-- There is such a time. -/
def DateTime.Valid (t : DateTime) : Prop := t.date.Valid ∧ t.hour < 24 ∧ t.minute < 60 ∧ t.second < 60

instance (t : DateTime) : Decidable t.Valid := inferInstanceAs (Decidable (_ ∧ _))

/-- The number of the second. -/
def DateTime.seconds (t : DateTime) : ℤ := 86400 * t.date.days + 3600 * t.hour + 60 * t.minute + t.second

/-- Date and time of a second. -/
def clock (seconds : ℤ) : DateTime :=
  let rest := (seconds % 86400).toNat
  ⟨civil (seconds / 86400), rest / 3600, rest % 3600 / 60, rest % 60⟩

theorem seconds_clock (seconds : ℤ) : (clock seconds).seconds = seconds := by
  have hdiv : seconds % 86400 + 86400 * (seconds / 86400) = seconds := Int.emod_add_mul_ediv _ _
  have hnonneg : 0 ≤ seconds % 86400 := Int.emod_nonneg _ (by decide)
  unfold DateTime.seconds clock
  dsimp only
  rw [days_civil]
  generalize seconds / 86400 = days at hdiv
  obtain ⟨rest, hrest⟩ := Int.eq_ofNat_of_zero_le hnonneg
  rw [hrest] at hdiv ⊢
  rw [Int.toNat_natCast]
  omega

theorem valid_clock (seconds : ℤ) : (clock seconds).Valid := by
  have hlt : (seconds % 86400).toNat < 86400 := by omega
  refine ⟨valid_civil _, ?_⟩
  unfold clock
  dsimp only
  omega

end Tilbo.Lib.Calendar
