import Mathlib.Data.Int.Init
import Mathlib.Data.Nat.Notation
import Mathlib.Tactic.Ext
import Mathlib.Tactic.IntervalCases
import Mathlib.Tactic.SplitIfs
/-!
# The proleptic Gregorian calendar

Dates by year, month and day, for all years before and after year 1, and the number of
days from the first day of year 1 to a date.
-/

namespace DeltaX.Support.Calendar

@[ext]
structure Date where
  year : ℤ
  month : ℕ
  day : ℕ
deriving DecidableEq, Repr

def IsLeap (year : ℤ) : Prop := year % 4 = 0 ∧ (year % 100 ≠ 0 ∨ year % 400 = 0)

instance (year : ℤ) : Decidable (IsLeap year) := inferInstanceAs (Decidable (_ ∧ _))

def daysInMonth (year : ℤ) (month : ℕ) : ℕ :=
  match month with
  | 2 => if IsLeap year then 29 else 28
  | 4 | 6 | 9 | 11 => 30
  | _ => 31

def daysBeforeYear (year : ℤ) : ℤ :=
  365 * (year - 1) + (year - 1) / 4 - (year - 1) / 100 + (year - 1) / 400

def daysBeforeMonth (year : ℤ) : ℕ → ℕ
  | 0 | 1 => 0
  | month + 2 => daysBeforeMonth year (month + 1) + daysInMonth year (month + 1)

namespace Date

structure Valid (d : Date) : Prop where
  month_pos : 1 ≤ d.month
  month_le : d.month ≤ 12
  day_pos : 1 ≤ d.day
  day_le : d.day ≤ daysInMonth d.year d.month

def ordinal (d : Date) : ℤ :=
  daysBeforeYear d.year + daysBeforeMonth d.year d.month + (d.day - 1)

end Date

/-! ## Years and months -/

theorem daysBeforeYear_succ (year : ℤ) :
    daysBeforeYear (year + 1) = daysBeforeYear year + if IsLeap year then 366 else 365 := by
  unfold daysBeforeYear IsLeap
  split_ifs <;> omega

theorem daysInMonth_le (year : ℤ) (month : ℕ) : daysInMonth year month ≤ 31 := by
  unfold daysInMonth
  split
  · split_ifs <;> omega
  all_goals omega

/-- January and February, and then the months of the year that begins in March. -/
theorem daysBeforeMonth_eq (year : ℤ) {month : ℕ} (hpos : 1 ≤ month) (hle : month ≤ 12) :
    daysBeforeMonth year month =
      if month ≤ 2 then 31 * (month - 1)
      else 59 + (if IsLeap year then 1 else 0) + (153 * (month - 3) + 2) / 5 := by
  by_cases hleap : IsLeap year <;> interval_cases month <;>
    simp [daysBeforeMonth, daysInMonth, hleap]

theorem daysInMonth_eq (year : ℤ) {month : ℕ} (hpos : 1 ≤ month) (hle : month ≤ 12) :
    daysInMonth year month =
      if month = 2 then (if IsLeap year then 29 else 28)
      else if month = 1 then 31
      else (153 * (month - 2) + 2) / 5 - (153 * (month - 3) + 2) / 5 := by
  by_cases hleap : IsLeap year <;> interval_cases month <;> simp [daysInMonth, hleap]

/-- Counted from the 1st of March, January and February are the last months of the year
before: the months are then as long as if all were of 30.6 days. -/
theorem ordinal_eq_march {d : Date} (hpos : 1 ≤ d.month) (hle : d.month ≤ 12) :
    d.ordinal + 306 =
      if d.month ≤ 2 then daysBeforeYear d.year + (153 * (d.month + 9) + 2) / 5 + (d.day - 1)
      else daysBeforeYear (d.year + 1) + (153 * (d.month - 3) + 2) / 5 + (d.day - 1) := by
  rw [daysBeforeYear_succ, Date.ordinal, daysBeforeMonth_eq d.year hpos hle]
  by_cases hleap : IsLeap d.year
  · simp only [hleap, if_true]
    split_ifs <;> omega
  · simp only [hleap, if_false]
    split_ifs <;> omega

theorem ordinal_mem_year {d : Date} (h : d.Valid) :
    daysBeforeYear d.year ≤ d.ordinal ∧ d.ordinal < daysBeforeYear (d.year + 1) := by
  obtain ⟨hpos, hle, hday, hlast⟩ := h
  rw [daysBeforeYear_succ, Date.ordinal, daysBeforeMonth_eq d.year hpos hle]
  rw [daysInMonth_eq d.year hpos hle] at hlast
  by_cases hleap : IsLeap d.year
  · simp only [hleap, if_true] at hlast ⊢
    split_ifs at hlast ⊢ <;> omega
  · simp only [hleap, if_false] at hlast ⊢
    split_ifs at hlast ⊢ <;> omega

theorem daysBeforeYear_mono {y y' : ℤ} (h : y ≤ y') : daysBeforeYear y ≤ daysBeforeYear y' := by
  unfold daysBeforeYear
  omega

theorem daysBeforeYear_le_ordinal_iff {d : Date} (h : d.Valid) (year : ℤ) :
    daysBeforeYear year ≤ d.ordinal ↔ year ≤ d.year := by
  obtain ⟨hfirst, hlast⟩ := ordinal_mem_year h
  constructor
  · intro hle
    by_contra hyear
    have hnext := daysBeforeYear_mono (show d.year + 1 ≤ year by omega)
    omega
  · intro hyear
    exact (daysBeforeYear_mono hyear).trans hfirst

theorem daysInMonth_pos (year : ℤ) (month : ℕ) : 1 ≤ daysInMonth year month := by
  unfold daysInMonth
  split
  · split_ifs <;> omega
  all_goals omega

theorem daysBeforeMonth_add_le (year : ℤ) {m m' : ℕ} (hpos : 1 ≤ m) (hlt : m < m') :
    daysBeforeMonth year m + daysInMonth year m ≤ daysBeforeMonth year m' := by
  obtain ⟨k, rfl⟩ := Nat.exists_eq_add_of_lt hlt
  clear hlt
  have hstep : ∀ m, 1 ≤ m →
      daysBeforeMonth year (m + 1) = daysBeforeMonth year m + daysInMonth year m := by
    intro m hm
    obtain ⟨k, rfl⟩ := Nat.exists_eq_add_of_le hm
    rw [Nat.add_comm 1 k]
    rfl
  induction k with
  | zero => exact (hstep m hpos).ge
  | succ k ih =>
      have hnext := hstep (m + k + 1) (by omega)
      rw [show m + (k + 1) + 1 = m + k + 1 + 1 by omega]
      omega

/-- A date is known by its day. -/
theorem eq_of_ordinal_eq {d d' : Date} (h : d.Valid) (h' : d'.Valid) (heq : d.ordinal = d'.ordinal) :
    d = d' := by
  have hyear : d.year = d'.year := by
    apply le_antisymm
    · rw [← daysBeforeYear_le_ordinal_iff h', ← heq, daysBeforeYear_le_ordinal_iff h]
    · rw [← daysBeforeYear_le_ordinal_iff h, heq, daysBeforeYear_le_ordinal_iff h']
  obtain ⟨hpos, hle, hday, hlast⟩ := h
  obtain ⟨hpos', hle', hday', hlast'⟩ := h'
  rw [Date.ordinal, Date.ordinal, ← hyear] at heq
  rw [← hyear] at hlast'
  have hmonth : d.month = d'.month := by
    apply le_antisymm
    · by_contra hlt
      have hbefore := daysBeforeMonth_add_le d.year hpos' (Nat.lt_of_not_le hlt)
      omega
    · by_contra hlt
      have hbefore := daysBeforeMonth_add_le d.year hpos (Nat.lt_of_not_le hlt)
      omega
  rw [← hmonth] at heq
  apply Date.ext hyear hmonth
  omega

namespace Date

def next (d : Date) : Date :=
  if d.day < daysInMonth d.year d.month then { d with day := d.day + 1 }
  else if d.month < 12 then { d with month := d.month + 1, day := 1 }
  else { year := d.year + 1, month := 1, day := 1 }

theorem next_valid {d : Date} (h : d.Valid) : d.next.Valid := by
  obtain ⟨hpos, hle, hday, hlast⟩ := h
  unfold next
  split_ifs with hin hmonth
  · exact ⟨hpos, hle, Nat.le_add_left 1 _, hin⟩
  · exact ⟨Nat.le_add_left 1 _, hmonth, le_refl 1, daysInMonth_pos _ _⟩
  · exact ⟨le_refl 1, show 1 ≤ 12 by decide, le_refl 1, daysInMonth_pos _ _⟩

theorem ordinal_next {d : Date} (h : d.Valid) : d.next.ordinal = d.ordinal + 1 := by
  obtain ⟨hpos, hle, hday, hlast⟩ := h
  unfold next
  split_ifs with hin hmonth
  · show daysBeforeYear d.year + (daysBeforeMonth d.year d.month : ℤ) + ((d.day + 1 : ℕ) - 1) =
      daysBeforeYear d.year + daysBeforeMonth d.year d.month + (d.day - 1) + 1
    omega
  · have hsucc : daysBeforeMonth d.year (d.month + 1) =
        daysBeforeMonth d.year d.month + daysInMonth d.year d.month := by
      obtain ⟨k, hk⟩ := Nat.exists_eq_add_of_le hpos
      rw [hk, Nat.add_comm 1 k]
      rfl
    show daysBeforeYear d.year + (daysBeforeMonth d.year (d.month + 1) : ℤ) + ((1 : ℕ) - 1) =
      daysBeforeYear d.year + _ + (d.day - 1) + 1
    omega
  · have hdec : d.month = 12 := by omega
    have hend : daysBeforeMonth d.year 12 + daysInMonth d.year 12 =
        if IsLeap d.year then 366 else 365 := by
      by_cases hleap : IsLeap d.year <;> simp [daysBeforeMonth, daysInMonth, hleap]
    rw [hdec] at hin hlast
    rw [ordinal, ordinal, daysBeforeYear_succ, hdec]
    show _ + ((0 : ℕ) : ℤ) + ((1 : ℕ) - 1 : ℤ) = _
    split_ifs at hend ⊢ <;> omega

end Date

/-! ## Times of day -/

/-- A date with a time of day in microseconds, without a zone. -/
structure DateTime where
  date : Date
  hour : ℕ
  minute : ℕ
  second : ℕ
  usec : ℕ
deriving DecidableEq, Repr

namespace DateTime

structure Valid (t : DateTime) : Prop where
  date_valid : t.date.Valid
  hour_lt : t.hour < 24
  minute_lt : t.minute < 60
  second_lt : t.second < 60
  usec_lt : t.usec < 1000000

def usecs (t : DateTime) : ℤ :=
  (t.date.ordinal * 86400 + (t.hour * 3600 + t.minute * 60 + t.second : ℕ)) * 1000000 + t.usec

/-- The first microsecond of a year. -/
theorem usecs_le_iff {t : DateTime} (h : t.Valid) (year : ℤ) :
    daysBeforeYear year * 86400000000 ≤ t.usecs ↔ year ≤ t.date.year := by
  obtain ⟨hdate, hhour, hminute, hsecond, husec⟩ := h
  rw [← daysBeforeYear_le_ordinal_iff hdate, usecs]
  omega

end DateTime

end DeltaX.Support.Calendar
