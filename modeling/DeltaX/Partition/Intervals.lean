import Mathlib.Algebra.Order.Field.Rat
import Mathlib.Order.Bounds.Defs
import Mathlib.Tactic.Linarith
/-!
# Partition intervals

The parts of an `interval` are taken out one by one, each with a zero where there is none or
where it is not an integer.  What they add up to is the width of the partitions, and a
partition begins at a multiple of it.
-/

namespace DeltaX.Partition.Intervals

/-- An `interval`: months, days and microseconds are kept apart. -/
structure Interval where
  months : ℤ
  days : ℤ
  micros : ℤ
  months_mem : -2 ^ 31 ≤ months ∧ months < 2 ^ 31
  days_mem : -2 ^ 31 ≤ days ∧ days < 2 ^ 31
  micros_mem : -2 ^ 63 ≤ micros ∧ micros < 2 ^ 63

inductive DateTimePart
  | month | day | hour | minute | second
deriving DecidableEq, Repr

inductive PgNumeric
  | finite (value : ℚ)
  | infinity
  | negInfinity
deriving DecidableEq, Repr

namespace Interval

/-- `'infinity'` and `'-infinity'` have the greatest and the least parts. -/
def IsInfinite (iv : Interval) : Prop :=
  (iv.months = 2 ^ 31 - 1 ∧ iv.days = 2 ^ 31 - 1 ∧ iv.micros = 2 ^ 63 - 1) ∨
    (iv.months = -2 ^ 31 ∧ iv.days = -2 ^ 31 ∧ iv.micros = -2 ^ 63)

instance (iv : Interval) : Decidable iv.IsInfinite := inferInstanceAs (Decidable (_ ∨ _))

def secondMicros (iv : Interval) : ℤ := (iv.micros.tmod 3600000000).tmod 60000000

/-- `extract_part`: the months that are not in a whole year, the days, and the time by hours,
minutes and seconds.  An infinite interval has no month, minute or second. -/
def extractPart (iv : Interval) (part : DateTimePart) : Option PgNumeric :=
  if iv.IsInfinite then
    match part with
    | .day | .hour => some (if 0 < iv.days then .infinity else .negInfinity)
    | .month | .minute | .second => none
  else
    match part with
    | .month => some (.finite (iv.months.tmod 12 : ℤ))
    | .day => some (.finite iv.days)
    | .hour => some (.finite (iv.micros.tdiv 3600000000 : ℤ))
    | .minute => some (.finite ((iv.micros.tmod 3600000000).tdiv 60000000 : ℤ))
    | .second => some (.finite (iv.secondMicros / 1000000))

/-- The microseconds of an interval that has a length: months have none of their own. -/
def length (iv : Interval) : Option ℤ :=
  if iv.months = 0 ∧ ¬ iv.IsInfinite then some (iv.days * 86400000000 + iv.micros) else none

end Interval

/-- The conversion of a `numeric` to an integer of some bits: exact on the integers that fit.
Another number is rounded or refused. -/
structure NumericToInt where
  tryInto : ℕ → PgNumeric → Option ℤ
  tryInto_int : ∀ (bits : ℕ) (n : ℤ), -2 ^ (bits - 1) ≤ n → n < 2 ^ (bits - 1) →
    tryInto bits (.finite n) = some n
  tryInto_near : ∀ (bits : ℕ) (q : ℚ) (n : ℤ), tryInto bits (.finite q) = some n → |q - n| < 1
  tryInto_infinity : ∀ bits, tryInto bits .infinity = none ∧ tryInto bits .negInfinity = none

/-- The result of arithmetic in `i64`. -/
def wrapI64 (n : ℤ) : ℤ := n.bmod (2 ^ 64)

def intPart (cast : NumericToInt) (bits : ℕ) (iv : Interval) (part : DateTimePart) : ℤ :=
  ((iv.extractPart part).bind (cast.tryInto bits)).getD 0

def intervalToUsec (cast : NumericToInt) (iv : Interval) : Option ℤ :=
  if intPart cast 32 iv .month ≠ 0 then none
  else some (wrapI64 (intPart cast 64 iv .day * 86400000000 +
    intPart cast 64 iv .hour * 3600000000 + intPart cast 64 iv .minute * 60000000 +
    intPart cast 64 iv .second * 1000000))

def alignToInterval (tsUsec intervalUsec : ℤ) : Option ℤ :=
  if intervalUsec = 0 ∨ (tsUsec = -2 ^ 63 ∧ intervalUsec = -1) then none
  else
    let d := tsUsec.tdiv intervalUsec
    let r := tsUsec.tmod intervalUsec
    if r < 0 then some (wrapI64 ((d - 1) * intervalUsec))
    else some (wrapI64 (d * intervalUsec))

/-! ## The length of an interval -/

theorem wrapI64_of_mem {n : ℤ} (hmin : -2 ^ 63 ≤ n) (hmax : n < 2 ^ 63) : wrapI64 n = n := by
  apply Int.bmod_eq_of_le
  · omega
  · omega

theorem wrapI64_mem (n : ℤ) : -2 ^ 63 ≤ wrapI64 n ∧ wrapI64 n < 2 ^ 63 := by
  have hmin : -(((2 ^ 64 : ℕ) : ℤ) / 2) ≤ wrapI64 n := Int.le_bmod (by decide)
  have hmax : wrapI64 n < (((2 ^ 64 : ℕ) : ℤ) + 1) / 2 := Int.bmod_lt (by decide)
  omega

/-- Two results are equal only if what was computed differs by a multiple of `2 ^ 64`. -/
theorem dvd_of_wrapI64_eq {a b : ℤ} (h : wrapI64 a = b) : (2 ^ 64 : ℤ) ∣ b - a := by
  rw [← h]
  exact Int.dvd_bmod_sub_self

section parts

variable (cast : NumericToInt) {iv : Interval}

theorem intPart_infinite (bits : ℕ) (h : iv.IsInfinite) (part : DateTimePart) :
    intPart cast bits iv part = 0 := by
  obtain ⟨hinf, hneg⟩ := cast.tryInto_infinity bits
  cases part <;> simp only [intPart, Interval.extractPart, if_pos h, Option.bind_none,
    Option.bind_some, Option.getD_none]
  all_goals
    split_ifs
    · simp [hinf]
    · simp [hneg]

theorem intPart_of_int (bits : ℕ) {part : DateTimePart} {n : ℤ}
    (h : iv.extractPart part = some (.finite n)) (hmin : -2 ^ (bits - 1) ≤ n)
    (hmax : n < 2 ^ (bits - 1)) : intPart cast bits iv part = n := by
  rw [intPart, h, Option.bind_some, cast.tryInto_int bits n hmin hmax]
  rfl

theorem intPart_month (h : ¬ iv.IsInfinite) : intPart cast 32 iv .month = iv.months.tmod 12 := by
  have hrange := Int.tmod_lt_of_pos iv.months (show (0 : ℤ) < 12 by decide)
  have hrange' := Int.lt_tmod_of_pos iv.months (show (0 : ℤ) < 12 by decide)
  apply intPart_of_int
  · rw [Interval.extractPart, if_neg h]
  · omega
  · omega

theorem intPart_day (h : ¬ iv.IsInfinite) : intPart cast 64 iv .day = iv.days := by
  obtain ⟨hmin, hmax⟩ := iv.days_mem
  apply intPart_of_int
  · rw [Interval.extractPart, if_neg h]
  · omega
  · omega

theorem intPart_hour (h : ¬ iv.IsInfinite) :
    intPart cast 64 iv .hour = iv.micros.tdiv 3600000000 := by
  obtain ⟨hmin, hmax⟩ := iv.micros_mem
  have hsplit := Int.mul_tdiv_add_tmod iv.micros 3600000000
  have hrange := Int.tmod_lt_of_pos iv.micros (show (0 : ℤ) < 3600000000 by decide)
  have hrange' := Int.lt_tmod_of_pos iv.micros (show (0 : ℤ) < 3600000000 by decide)
  apply intPart_of_int
  · rw [Interval.extractPart, if_neg h]
  · omega
  · omega

theorem intPart_minute (h : ¬ iv.IsInfinite) :
    intPart cast 64 iv .minute = (iv.micros.tmod 3600000000).tdiv 60000000 := by
  have hsplit := Int.mul_tdiv_add_tmod (iv.micros.tmod 3600000000) 60000000
  have hrange := Int.tmod_lt_of_pos iv.micros (show (0 : ℤ) < 3600000000 by decide)
  have hrange' := Int.lt_tmod_of_pos iv.micros (show (0 : ℤ) < 3600000000 by decide)
  have hrest := Int.tmod_lt_of_pos (iv.micros.tmod 3600000000) (show (0 : ℤ) < 60000000 by decide)
  have hrest' := Int.lt_tmod_of_pos (iv.micros.tmod 3600000000)
    (show (0 : ℤ) < 60000000 by decide)
  apply intPart_of_int
  · rw [Interval.extractPart, if_neg h]
  · omega
  · omega

/-- The whole seconds of a minute are counted exactly.  Of others the fraction, or the whole
part with it, is missing. -/
theorem intPart_second (h : ¬ iv.IsInfinite) :
    if iv.micros % 1000000 = 0 then
      intPart cast 64 iv .second * 1000000 = iv.secondMicros
    else
      |iv.secondMicros - intPart cast 64 iv .second * 1000000| < 60000000 ∧
        iv.secondMicros - intPart cast 64 iv .second * 1000000 ≠ 0 := by
  have hminute := Int.mul_tdiv_add_tmod iv.micros 3600000000
  have hsecond := Int.mul_tdiv_add_tmod (iv.micros.tmod 3600000000) 60000000
  have hlt := Int.tmod_lt_of_pos (iv.micros.tmod 3600000000) (show (0 : ℤ) < 60000000 by decide)
  have hgt := Int.lt_tmod_of_pos (iv.micros.tmod 3600000000) (show (0 : ℤ) < 60000000 by decide)
  have hpart : iv.extractPart .second = some (.finite (iv.secondMicros / 1000000)) := by
    rw [Interval.extractPart, if_neg h]
  have hmicros : (iv.micros.tmod 3600000000).tmod 60000000 = iv.secondMicros := rfl
  rw [hmicros] at hsecond hlt hgt
  split_ifs with hwhole
  · have hint : ((iv.secondMicros : ℚ) / 1000000) = ((iv.secondMicros / 1000000 : ℤ) : ℚ) := by
      rw [Int.cast_div (by omega) (by norm_num)]
      rfl
    rw [hint] at hpart
    rw [intPart_of_int cast 64 hpart (by omega) (by omega)]
    omega
  · have hne : ∀ n : ℤ, iv.secondMicros - n * 1000000 ≠ 0 := by
      intro n
      omega
    refine ⟨?_, hne _⟩
    rw [intPart, hpart, Option.bind_some]
    cases hcast : cast.tryInto 64 (.finite (iv.secondMicros / 1000000)) with
    | none =>
        show |iv.secondMicros - 0 * 1000000| < 60000000
        rw [abs_lt]
        omega
    | some n =>
        have hnear := cast.tryInto_near 64 _ n hcast
        rw [abs_lt, lt_sub_iff_add_lt, sub_lt_iff_lt_add, lt_div_iff₀ (by norm_num),
          div_lt_iff₀ (by norm_num)] at hnear
        obtain ⟨hlow, hhigh⟩ := hnear
        have hlow' : (-1 + n) * 1000000 < iv.secondMicros := by exact_mod_cast hlow
        have hhigh' : iv.secondMicros < (1 + n) * 1000000 := by exact_mod_cast hhigh
        show |iv.secondMicros - n * 1000000| < 60000000
        rw [abs_lt]
        omega

/-- What the parts add up to: all of the days and the time but for the seconds. -/
theorem intervalToUsec_of_finite (h : ¬ iv.IsInfinite) (hmonths : iv.months.tmod 12 = 0) :
    intervalToUsec cast iv = some (wrapI64 (iv.days * 86400000000 + iv.micros -
      (iv.secondMicros - intPart cast 64 iv .second * 1000000))) := by
  have hminute := Int.mul_tdiv_add_tmod iv.micros 3600000000
  have hsecond := Int.mul_tdiv_add_tmod (iv.micros.tmod 3600000000) 60000000
  have hmicros : (iv.micros.tmod 3600000000).tmod 60000000 = iv.secondMicros := rfl
  rw [intervalToUsec, intPart_month cast h, hmonths, if_neg (by decide), intPart_day cast h,
    intPart_hour cast h, intPart_minute cast h]
  congr 2
  omega

/-- The months stand in the way exactly when they are not whole years. -/
theorem intervalToUsec_eq_none_iff (h : ¬ iv.IsInfinite) :
    intervalToUsec cast iv = none ↔ iv.months % 12 ≠ 0 := by
  have hmonths : iv.months.tmod 12 = 0 ↔ iv.months % 12 = 0 := by
    rw [← Int.dvd_iff_tmod_eq_zero, Int.dvd_iff_emod_eq_zero]
  by_cases hzero : iv.months.tmod 12 = 0
  · rw [intervalToUsec_of_finite cast h hzero]
    simp [hmonths.mp hzero]
  · rw [intervalToUsec, intPart_month cast h, if_pos hzero]
    simpa using fun hmod => hzero (hmonths.mpr hmod)

end parts

/-- Days and whole seconds alone, more than none and not too many for 64 bits. -/
structure Interval.Fixed (iv : Interval) : Prop where
  months_eq : iv.months = 0
  finite : ¬ iv.IsInfinite
  seconds : iv.micros % 1000000 = 0
  pos : 0 < iv.days * 86400000000 + iv.micros
  fits : iv.days * 86400000000 + iv.micros < 2 ^ 63

theorem intervalToUsec_exact_iff (cast : NumericToInt) {iv : Interval} {usec : ℤ}
    (h : intervalToUsec cast iv = some usec) :
    (iv.length = some usec ∧ 0 < usec) ↔
      iv.Fixed ∧ usec = iv.days * 86400000000 + iv.micros := by
  constructor
  · rintro ⟨hlength, hpos⟩
    rw [Interval.length] at hlength
    split_ifs at hlength with hfinite
    obtain ⟨hmonths, hfinite⟩ := hfinite
    have husec : usec = iv.days * 86400000000 + iv.micros := (Option.some.inj hlength).symm
    rw [intervalToUsec_of_finite cast hfinite (by rw [hmonths]; rfl), Option.some.injEq] at h
    have hrange := wrapI64_mem (iv.days * 86400000000 + iv.micros -
      (iv.secondMicros - intPart cast 64 iv .second * 1000000))
    rw [h] at hrange
    have hseconds : iv.micros % 1000000 = 0 := by
      by_contra hne
      have hsecond := intPart_second cast hfinite
      rw [if_neg hne, abs_lt] at hsecond
      have hdvd := dvd_of_wrapI64_eq h
      omega
    exact ⟨⟨hmonths, hfinite, hseconds, by omega, by omega⟩, husec⟩
  · rintro ⟨hfixed, rfl⟩
    exact ⟨if_pos ⟨hfixed.months_eq, hfixed.finite⟩, hfixed.pos⟩

theorem intervalToUsec_fixed (cast : NumericToInt) {iv : Interval} (h : iv.Fixed) :
    intervalToUsec cast iv = some (iv.days * 86400000000 + iv.micros) := by
  have hsecond := intPart_second cast h.finite
  rw [if_pos h.seconds] at hsecond
  have hpos := h.pos
  have hfits := h.fits
  rw [intervalToUsec_of_finite cast h.finite (by rw [h.months_eq]; rfl), hsecond, sub_self,
    sub_zero, wrapI64_of_mem (by omega) hfits]

theorem Interval.Fixed.usec_emod {iv : Interval} (h : iv.Fixed) :
    (iv.days * 86400000000 + iv.micros) % 1000000 = 0 := by
  have hseconds := h.seconds
  omega

/-! ## Alignment -/

/-- From the first instant of PostgreSQL's to the last one that has 64 bits, in microseconds
from the Unix epoch. -/
def IsInstant (usec : ℤ) : Prop := -210866803200000000 ≤ usec ∧ usec < 2 ^ 63

/-- The multiple of the interval not above an instant is computed without overflow. -/
theorem alignToInterval_eq {ts interval : ℤ} (hts : IsInstant ts) (hpos : 0 < interval)
    (hfits : interval < 2 ^ 63) : alignToInterval ts interval = some (ts / interval * interval) := by
  obtain ⟨hmin, hmax⟩ := hts
  have hdiv := Int.ediv_mul_add_emod ts interval
  have hrem := Int.emod_nonneg ts hpos.ne'
  have hrem' := Int.emod_lt_of_pos ts hpos
  have hlow : -2 ^ 63 ≤ ts / interval * interval := by
    by_cases hlarge : -ts ≤ interval
    · have hquot : -1 ≤ ts / interval := (Int.le_ediv_iff_mul_le hpos).mpr (by omega)
      calc -2 ^ 63 ≤ -1 * interval := by omega
        _ ≤ ts / interval * interval := Int.mul_le_mul_of_nonneg_right hquot hpos.le
    · omega
  have hsplit := Int.mul_tdiv_add_tmod ts interval
  rw [alignToInterval, if_neg (by omega)]
  by_cases hneg : ts.tmod interval < 0
  · have hfloor : (ts.tdiv interval - 1) * interval = ts / interval * interval := by
      have hgt := Int.lt_tmod_of_pos ts hpos
      have hquot : ts / interval = ts.tdiv interval - 1 := by
        rw [Int.ediv_eq_iff_of_pos hpos]
        constructor
        · linarith [mul_comm interval (ts.tdiv interval)]
        · linarith [mul_comm interval (ts.tdiv interval)]
      rw [hquot]
    simp only [if_pos hneg, hfloor, wrapI64_of_mem hlow (show _ < 2 ^ 63 by omega)]
  · have hfloor : ts.tdiv interval = ts / interval := by
      have hlt := Int.tmod_lt_of_pos ts hpos
      symm
      rw [Int.ediv_eq_iff_of_pos hpos]
      constructor
      · linarith [mul_comm interval (ts.tdiv interval)]
      · linarith [mul_comm interval (ts.tdiv interval)]
    simp only [if_neg hneg, hfloor, wrapI64_of_mem hlow (show _ < 2 ^ 63 by omega)]

/-- The greatest multiple of a positive number that is not above another. -/
theorem isGreatest_ediv_mul (ts : ℤ) {interval : ℤ} (hpos : 0 < interval) :
    IsGreatest {start | interval ∣ start ∧ start ≤ ts} (ts / interval * interval) := by
  constructor
  · exact ⟨Int.dvd_mul_left _ _, Int.ediv_mul_le ts hpos.ne'⟩
  · rintro start ⟨⟨k, rfl⟩, hle⟩
    have hquot : k ≤ ts / interval := (Int.le_ediv_iff_mul_le hpos).mpr (by rwa [mul_comm])
    rw [mul_comm]
    exact Int.mul_le_mul_of_nonneg_right hquot hpos.le

end DeltaX.Partition.Intervals
