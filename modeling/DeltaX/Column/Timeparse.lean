import DeltaX.Column.Typed
import DeltaX.Support.Calendar
import Mathlib.Data.List.DropRight
/-!
# Timestamps as text

`usec_to_timestamp_string` writes Unix microseconds as the UTC date and time.  The
date comes from the days since the Unix epoch over the 400-year eras that begin on
the 1st of March.
-/

namespace DeltaX.Column.Timeparse

open Support.Calendar

/-! ## Dates -/

def epochDaysToDate (days : ℤ) : Date :=
  let z := days + 719468
  -- the division of `i64` truncates
  let era := (if z ≥ 0 then z else z - 146096).tdiv 146097
  let doe := (z - era * 146097).toNat
  let yoe := (doe - doe / 1460 + doe / 36524 - doe / 146096) / 365
  let y := (yoe : ℤ) + era * 400
  let doy := doe - (365 * yoe + yoe / 4 - yoe / 100)
  let mp := (5 * doy + 2) / 153
  let d := doy - (153 * mp + 2) / 5 + 1
  let m := if mp < 10 then mp + 3 else mp - 9
  { year := if m ≤ 2 then y + 1 else y, month := m, day := d }

/-- The days of an era are its centuries, four-year cycles and years.  Only a fourth
year has a last day 365, and in a last cycle only that of the last century. -/
theorem exists_era_parts {doe : ℕ} (h : doe < 146097) :
    ∃ k q j s, doe = 36524 * k + 1461 * q + 365 * j + s ∧ k ≤ 3 ∧ q ≤ 24 ∧ j ≤ 3 ∧ s ≤ 365 ∧
      (s = 365 → j = 3 ∧ (q = 24 → k = 3)) := by
  by_cases hend : doe = 146096
  · exact ⟨3, 24, 3, 365, by omega⟩
  · have hk : doe / 36524 ≤ 3 := by omega
    have hdoe := Nat.div_add_mod doe 36524
    have hr := Nat.mod_lt doe (show 36524 > 0 by decide)
    generalize doe / 36524 = k at *
    generalize doe % 36524 = r at *
    have hq := Nat.div_add_mod r 1461
    have hs := Nat.mod_lt r (show 1461 > 0 by decide)
    generalize r / 1461 = q at *
    generalize r % 1461 = s at *
    by_cases hleap : s = 1460
    · exact ⟨k, q, 3, 365, by omega⟩
    · have hj := Nat.div_add_mod s 365
      have ht := Nat.mod_lt s (show 365 > 0 by decide)
      generalize s / 365 = j at *
      generalize s % 365 = t at *
      exact ⟨k, q, j, t, by omega⟩

/-- Days are divided by 365 once those beyond 365 are taken out. -/
theorem yoe_eq {k q j s doe : ℕ} (hk : k ≤ 3) (hq : q ≤ 24) (hj : j ≤ 3) (hs : s ≤ 365)
    (hlast : s = 365 → j = 3 ∧ (q = 24 → k = 3))
    (hdoe : doe = 36524 * k + 1461 * q + 365 * j + s) :
    (doe - doe / 1460 + doe / 36524 - doe / 146096) / 365 = 100 * k + 4 * q + j := by
  have h1460 := Nat.div_add_mod doe 1460
  have hmod := Nat.mod_lt doe (show 1460 > 0 by decide)
  generalize doe / 1460 = a at *
  generalize doe % 1460 = b at *
  have hsub : doe / 36524 - doe / 146096 = k := by omega
  have hle : doe / 146096 ≤ doe / 36524 := by omega
  have hsum : doe - a + doe / 36524 - doe / 146096 = doe - a + k := by omega
  rw [hsum]
  apply Nat.div_eq_of_lt_le <;> omega

theorem era_eq (z : ℤ) : (if z ≥ 0 then z else z - 146096).tdiv 146097 = z / 146097 := by
  split_ifs with hz
  · rw [Int.tdiv_eq_ediv_of_nonneg hz]
  · rw [show z - 146096 = -(146096 - z) by omega, Int.neg_tdiv,
      Int.tdiv_eq_ediv_of_nonneg (by omega)]
    omega

theorem epochDaysToDate_eq {days era : ℤ} {k q j s : ℕ} (hk : k ≤ 3) (hq : q ≤ 24) (hj : j ≤ 3)
    (hs : s ≤ 365) (hlast : s = 365 → j = 3 ∧ (q = 24 → k = 3))
    (hdays : days + 719468 = era * 146097 + (36524 * k + 1461 * q + 365 * j + s : ℕ)) :
    epochDaysToDate days =
      let y : ℤ := (100 * k + 4 * q + j : ℕ) + era * 400
      let mp := (5 * s + 2) / 153
      let m := if mp < 10 then mp + 3 else mp - 9
      ⟨if m ≤ 2 then y + 1 else y, m, s - (153 * mp + 2) / 5 + 1⟩ := by
  have hyoe := yoe_eq hk hq hj hs hlast rfl
  have hera : (days + 719468) / 146097 = era := by
    rw [hdays, Int.add_comm, Int.add_mul_ediv_right _ _ (by decide),
      Int.ediv_eq_zero_of_lt (by omega) (by omega), Int.zero_add]
  have hrest : (days + 719468 - era * 146097).toNat = 36524 * k + 1461 * q + 365 * j + s := by
    rw [hdays, add_sub_cancel_left, Int.toNat_natCast]
  have h4 : (100 * k + 4 * q + j) / 4 = 25 * k + q := by omega
  have h100 : (100 * k + 4 * q + j) / 100 = k := by omega
  have hdoy : 36524 * k + 1461 * q + 365 * j + s -
      (365 * (100 * k + 4 * q + j) + (25 * k + q) - k) = s := by omega
  simp only [epochDaysToDate, era_eq, hera, hrest, hyoe, h4, h100, hdoy]

theorem daysBeforeYear_era {era : ℤ} {k q j : ℕ} (hk : k ≤ 3) (hq : q ≤ 24) (hj : j ≤ 3) :
    daysBeforeYear ((100 * k + 4 * q + j : ℕ) + era * 400 + 1) =
      era * 146097 + (36524 * k + 1461 * q + 365 * j : ℕ) := by
  have h4 : ((100 * k + 4 * q + j : ℕ) + era * 400) / 4 = 25 * k + q + era * 100 := by omega
  have h100 : ((100 * k + 4 * q + j : ℕ) + era * 400) / 100 = k + era * 4 := by omega
  have h400 : ((100 * k + 4 * q + j : ℕ) + era * 400) / 400 = era := by omega
  rw [daysBeforeYear, add_sub_cancel_right, h4, h100, h400]
  omega

/-- The 366th day from the 1st of March on is in a leap year. -/
theorem isLeap_era {era : ℤ} {k q j : ℕ} (hq : q ≤ 24) (hj : j = 3)
    (hlast : q = 24 → k = 3) : IsLeap ((100 * k + 4 * q + j : ℕ) + era * 400 + 1) := by
  constructor
  · omega
  · by_cases hcentury : q = 24
    · exact Or.inr (by omega)
    · exact Or.inl (by omega)

theorem epochDaysToDate_spec (days : ℤ) :
    (epochDaysToDate days).Valid ∧ (epochDaysToDate days).ordinal = days + 719162 := by
  have hparts : ∃ (era : ℤ) (doe : ℕ), days + 719468 = era * 146097 + doe ∧ doe < 146097 :=
    ⟨(days + 719468) / 146097, ((days + 719468) % 146097).toNat, by omega⟩
  obtain ⟨era, doe, hdays, hdoe⟩ := hparts
  obtain ⟨k, q, j, s, rfl, hk, hq, hj, hs, hlast⟩ := exists_era_parts hdoe
  rw [epochDaysToDate_eq hk hq hj hs hlast hdays]
  have hmarch : daysBeforeYear ((100 * k + 4 * q + j : ℕ) + era * 400 + 1) + s = days + 719468 := by
    rw [daysBeforeYear_era hk hq hj, hdays]
    omega
  have hleap : s = 365 → IsLeap ((100 * k + 4 * q + j : ℕ) + era * 400 + 1) := fun h =>
    isLeap_era hq (hlast h).1 (hlast h).2
  generalize ((100 * k + 4 * q + j : ℕ) + era * 400 : ℤ) = y at hmarch hleap
  clear hdays hdoe hlast
  have hmp : (5 * s + 2) / 153 ≤ 11 := by omega
  have hday : (153 * ((5 * s + 2) / 153) + 2) / 5 ≤ s := by omega
  have hnext : s < (153 * ((5 * s + 2) / 153 + 1) + 2) / 5 := by omega
  generalize (5 * s + 2) / 153 = mp at *
  by_cases hm : mp < 10
  · have hm2 : ¬ mp + 3 ≤ 2 := by omega
    simp only [hm, if_true, hm2, if_false]
    constructor
    · refine ⟨show 1 ≤ mp + 3 by omega, show mp + 3 ≤ 12 by omega, Nat.le_add_left 1 _, ?_⟩
      show s - (153 * mp + 2) / 5 + 1 ≤ daysInMonth y (mp + 3)
      rw [daysInMonth_eq y (show 1 ≤ mp + 3 by omega) (show mp + 3 ≤ 12 by omega),
        show mp + 3 - 2 = mp + 1 by omega, Nat.add_sub_cancel]
      split_ifs <;> omega
    · have hordinal := ordinal_eq_march (d := ⟨y, mp + 3, s - (153 * mp + 2) / 5 + 1⟩)
        (show 1 ≤ mp + 3 by omega) (show mp + 3 ≤ 12 by omega)
      simp only [hm2, if_false] at hordinal
      omega
  · have hm2 : mp - 9 ≤ 2 := by omega
    simp only [hm, if_false, hm2, if_true]
    constructor
    · refine ⟨show 1 ≤ mp - 9 by omega, show mp - 9 ≤ 12 by omega, Nat.le_add_left 1 _, ?_⟩
      show s - (153 * mp + 2) / 5 + 1 ≤ daysInMonth (y + 1) (mp - 9)
      rw [daysInMonth_eq (y + 1) (show 1 ≤ mp - 9 by omega) (show mp - 9 ≤ 12 by omega)]
      by_cases hl : IsLeap (y + 1)
      · simp only [hl, if_true]
        split_ifs <;> omega
      · have hs : s ≠ 365 := fun h => hl (hleap h)
        simp only [hl, if_false]
        split_ifs <;> omega
    · have hordinal := ordinal_eq_march (d := ⟨y + 1, mp - 9, s - (153 * mp + 2) / 5 + 1⟩)
        (show 1 ≤ mp - 9 by omega) (show mp - 9 ≤ 12 by omega)
      simp only [hm2, if_true] at hordinal
      omega

/-- `date_to_epoch_days`.  The `u64` arithmetic of the day in the era wraps, and comes
back as an `i64`. -/
def dateToEpochDays (year : ℤ) (month day : ℕ) : ℤ :=
  let y := if month ≤ 2 then year - 1 else year
  let m := if month ≤ 2 then month + 9 else month - 3
  let era := (if y ≥ 0 then y else y - 399).tdiv 400
  let yoe := (y - era * 400).toNat
  let doy : ℤ := ((153 * m + 2) / 5 : ℕ) + day - 1
  let doe := (yoe * 365 + yoe / 4 : ℕ) - (yoe / 100 : ℕ) + doy
  era * 146097 + doe - 719468

theorem daysBeforeYear_march (y : ℤ) :
    daysBeforeYear (y + 1) = (if y ≥ 0 then y else y - 399).tdiv 400 * 146097 +
      (((y - (if y ≥ 0 then y else y - 399).tdiv 400 * 400).toNat * 365 +
        (y - (if y ≥ 0 then y else y - 399).tdiv 400 * 400).toNat / 4 : ℕ) -
        ((y - (if y ≥ 0 then y else y - 399).tdiv 400 * 400).toNat / 100 : ℕ)) := by
  have hera : (if y ≥ 0 then y else y - 399).tdiv 400 = y / 400 := by
    split_ifs with hy
    · rw [Int.tdiv_eq_ediv_of_nonneg hy]
    · rw [show y - 399 = -(399 - y) by omega, Int.neg_tdiv,
        Int.tdiv_eq_ediv_of_nonneg (by omega)]
      omega
  have hparts : ∃ (era : ℤ) (yoe : ℕ), y = era * 400 + yoe ∧ yoe < 400 :=
    ⟨y / 400, (y % 400).toNat, by omega⟩
  obtain ⟨era, yoe, rfl, hyoe⟩ := hparts
  have hdiv : (era * 400 + yoe) / 400 = era := by omega
  have hrest : (era * 400 + yoe - era * 400 : ℤ).toNat = yoe := by omega
  have h4 : (era * 400 + yoe) / 4 = era * 100 + (yoe / 4 : ℕ) := by omega
  have h100 : (era * 400 + yoe) / 100 = era * 4 + (yoe / 100 : ℕ) := by omega
  rw [hera, hdiv, hrest, daysBeforeYear, add_sub_cancel_right, h4, h100, hdiv]
  omega

/-- The days of a month and a day within it, and also of a day past its end. -/
theorem dateToEpochDays_eq {d : Date} (hpos : 1 ≤ d.month) (hle : d.month ≤ 12) :
    dateToEpochDays d.year d.month d.day = d.ordinal - 719162 := by
  have hordinal := ordinal_eq_march hpos hle
  unfold dateToEpochDays
  split_ifs at hordinal ⊢ with hm
  · have hyear := daysBeforeYear_march (d.year - 1)
    rw [sub_add_cancel] at hyear
    simp only
    omega
  · have hyear := daysBeforeYear_march d.year
    simp only
    omega

/-- Day numbers and dates of the calendar are one to one, and the next date has the next
number. -/
theorem civil_bijection :
    (∀ days, dateToEpochDays (epochDaysToDate days).year (epochDaysToDate days).month
        (epochDaysToDate days).day = days ∧ (epochDaysToDate days).Valid) ∧
      (∀ d : Date, d.Valid → epochDaysToDate (dateToEpochDays d.year d.month d.day) = d) ∧
      ∀ d : Date, d.Valid → d.next.Valid ∧
        dateToEpochDays d.next.year d.next.month d.next.day =
          dateToEpochDays d.year d.month d.day + 1 := by
  have hdays : ∀ {d : Date}, d.Valid →
      dateToEpochDays d.year d.month d.day = d.ordinal - 719162 := fun h =>
    dateToEpochDays_eq h.month_pos h.month_le
  refine ⟨fun days => ?_, fun d hd => ?_, fun d hd => ⟨Date.next_valid hd, ?_⟩⟩
  · obtain ⟨hvalid, hordinal⟩ := epochDaysToDate_spec days
    exact ⟨by rw [hdays hvalid, hordinal, add_sub_cancel_right], hvalid⟩
  · obtain ⟨hvalid, hordinal⟩ := epochDaysToDate_spec (d.ordinal - 719162)
    rw [hdays hd]
    exact eq_of_ordinal_eq hvalid hd (hordinal.trans (sub_add_cancel _ _))
  · rw [hdays (Date.next_valid hd), hdays hd, Date.ordinal_next hd]
    omega

/-! ## Texts -/

/-- A number with leading zeros up to a width. -/
def padded (width n : ℕ) : Text := (Nat.toDigits 10 n).leftpad width '0'

def paddedInt (width : ℕ) (n : ℤ) : Text :=
  if n < 0 then '-' :: padded (width - 1) n.natAbs else padded width n.toNat

/-- The format of `usec_to_timestamp_string`. -/
def timestampText (t : DateTime) : Text :=
  paddedInt 4 t.date.year ++ '-' :: (padded 2 t.date.month ++ '-' :: (padded 2 t.date.day ++
    ' ' :: (padded 2 t.hour ++ ':' :: (padded 2 t.minute ++ ':' :: (padded 2 t.second ++
      ((if 0 < t.usec then '.' :: (padded 6 t.usec).rdropWhile (fun c => c = '0') else []) ++
        "+00".toList))))))

def usecToDateTime (usec : ℤ) : DateTime :=
  let absUsec := usec.natAbs
  let secs : ℤ := (absUsec / 1000000 : ℕ)
  let frac := absUsec % 1000000
  let totalSecs := if usec < 0 then (if 0 < frac then -(secs + 1) else -secs) else secs
  let fracUsec := if usec < 0 then (if 0 < frac then 1000000 - frac else 0) else frac
  -- `rem_euclid`
  let daySecs := totalSecs % 86400
  let days := (totalSecs - daySecs).tdiv 86400
  { date := epochDaysToDate days
    hour := daySecs.toNat / 3600
    minute := daySecs.toNat % 3600 / 60
    second := daySecs.toNat % 60
    usec := fracUsec }

def usecToTimestampString (usec : ℤ) : Text := timestampText (usecToDateTime usec)

/-- `usec_to_date_string`.  The subtraction wraps next to the smallest `i64`. -/
def usecToDateString (usec : ℤ) : Text :=
  let totalSecs :=
    if usec ≥ 0 then usec.tdiv 1000000 else ((usec - 999999).bmod (2 ^ 64)).tdiv 1000000
  let days := if totalSecs ≥ 0 then totalSecs.tdiv 86400 else (totalSecs - 86399).tdiv 86400
  let date := epochDaysToDate days
  paddedInt 4 date.year ++ '-' :: (padded 2 date.month ++ '-' :: padded 2 date.day)

/-- The parts are those of the instant. -/
theorem usecToDateTime_spec (usec : ℤ) :
    (usecToDateTime usec).Valid ∧ (usecToDateTime usec).usecs = usec + 62135596800000000 := by
  -- both ways to split are the division with a remainder that is not negative
  have hsecs : (if usec < 0 then (if 0 < usec.natAbs % 1000000 then
      -(((usec.natAbs / 1000000 : ℕ) : ℤ) + 1) else -((usec.natAbs / 1000000 : ℕ) : ℤ))
      else ((usec.natAbs / 1000000 : ℕ) : ℤ)) = usec / 1000000 := by
    split_ifs <;> omega
  have hfrac : (if usec < 0 then (if 0 < usec.natAbs % 1000000 then
      1000000 - usec.natAbs % 1000000 else 0) else usec.natAbs % 1000000) =
      (usec % 1000000).toNat := by
    split_ifs <;> omega
  have hdays : (usec / 1000000 - usec / 1000000 % 86400).tdiv 86400 = usec / 1000000 / 86400 := by
    apply Int.tdiv_eq_of_eq_mul_right (by decide)
    omega
  simp only [usecToDateTime, hsecs, hfrac, hdays]
  obtain ⟨hvalid, hordinal⟩ := epochDaysToDate_spec (usec / 1000000 / 86400)
  generalize hs : (usec / 1000000 % 86400).toNat = daySecs
  have hlt : daySecs < 86400 := by omega
  constructor
  · refine ⟨hvalid, ?_, ?_, Nat.mod_lt _ (by decide), ?_⟩
    · show daySecs / 3600 < 24
      omega
    · show daySecs % 3600 / 60 < 60
      omega
    · show (usec % 1000000).toNat < 1000000
      omega
  · have hclock : daySecs / 3600 * 3600 + daySecs % 3600 / 60 * 60 + daySecs % 60 = daySecs := by
      omega
    rw [DateTime.usecs]
    simp only [hordinal, hclock]
    omega

/-! ## Digits -/

def number (digits : Text) : ℕ := Nat.ofDigitChars 10 digits 0

theorem number_padded (width n : ℕ) : number (padded width n) = n := by
  rw [number, padded, List.leftpad, Nat.ofDigitChars_append, Nat.ofDigitChars_replicate_zero,
    Nat.mul_zero, Nat.ofDigitChars_ten_toDigits]

theorem length_padded {width n : ℕ} (hwidth : 0 < width) (hn : n < 10 ^ width) :
    (padded width n).length = width := by
  have hlen := (Nat.length_toDigits_le_iff (b := 10) (by decide) hwidth).mpr hn
  rw [padded, List.length_leftpad]
  exact max_eq_left hlen

theorem isDigit_of_mem_padded {width n : ℕ} {c : Char} (hc : c ∈ padded width n) :
    c.isDigit = true := by
  rw [padded, List.leftpad, List.mem_append] at hc
  rcases hc with hc | hc
  · rw [List.eq_of_mem_replicate hc]
    rfl
  · exact Nat.isDigit_of_mem_toDigits (by decide) (by decide) hc

theorem exists_padded_two {n : ℕ} (hn : n < 100) : ∃ c d, padded 2 n = [c, d] ∧ number [c, d] = n := by
  obtain ⟨c, d, hcd⟩ := List.length_eq_two.mp (length_padded (by decide) hn)
  exact ⟨c, d, hcd, hcd ▸ number_padded 2 n⟩

theorem rightpad_rdropWhile_zero (digits : Text) :
    (digits.rdropWhile fun c => c = '0').rightpad digits.length '0' = digits := by
  induction digits using List.reverseRecOn with
  | nil => rfl
  | append_singleton digits c ih =>
      by_cases hc : c = '0'
      · subst hc
        have hle : (digits.rdropWhile fun c => c = '0').length ≤ digits.length :=
          (List.rdropWhile_prefix _ _).length_le
        rw [List.rightpad] at ih
        rw [List.rdropWhile_concat_pos _ _ _ (by simp), List.rightpad, List.length_append,
          List.length_singleton, Nat.sub_add_comm hle, List.replicate_succ', ← List.append_assoc, ih]
      · rw [List.rdropWhile_concat_neg _ _ _ (by simpa using hc), List.rightpad, Nat.sub_self,
          List.replicate_zero, List.append_nil]

end DeltaX.Column.Timeparse
