import DeltaX.Support.KeySpan
import Mathlib.Algebra.Order.Ring.Int
import Mathlib.Order.WithBot
import Mathlib.Tactic.Ring
/-!
# Two orders on IEEE 754 bit patterns

A binary interchange pattern is read as a sign bit and a magnitude, the other
bits as a number.  `totalKey` is the total order of the standard, which orders
the patterns themselves: negative NaNs first, then the numbers with `-0` below
`+0`, then the positive NaNs.  `rank` is the order of the values, in which the
zeros coincide and every NaN is the one greatest element.

The two disagree on exactly the pairs named here, `tied` ones and `clashing`
ones.
-/

namespace DeltaX.Support.IeeeOrder

open KeySpan

/-- Field widths of a binary interchange format. -/
structure Format where
  exponentBits : ℕ
  mantissaBits : ℕ
deriving DecidableEq, Repr

namespace Format

def magnitudeBits (f : Format) : ℕ := f.exponentBits + f.mantissaBits

def infinity (f : Format) : ℕ := (2 ^ f.exponentBits - 1) * 2 ^ f.mantissaBits

end Format

/-- Bit patterns of a format, the sign bit first. -/
abbrev Pattern (f : Format) : Type := BitVec (f.magnitudeBits + 1)

def binary64 : Format := ⟨11, 52⟩

def binary32 : Format := ⟨8, 23⟩

/-- All bits but the sign bit. -/
def magnitude {w : ℕ} (v : BitVec (w + 1)) : ℕ := v.toNat % 2 ^ w

def totalKey {w : ℕ} (v : BitVec (w + 1)) : ℤ :=
  if v.msb then -1 - (magnitude v : ℤ) else magnitude v

/-- The value of a magnitude, in units of the least subnormal.  The exponent
field 0 is the one without the implicit leading bit. -/
def scaled (mantissaBits n : ℕ) : ℕ :=
  if n / 2 ^ mantissaBits = 0 then n % 2 ^ mantissaBits
  else (2 ^ mantissaBits + n % 2 ^ mantissaBits) * 2 ^ (n / 2 ^ mantissaBits - 1)

def isNan (f : Format) (v : Pattern f) : Bool := decide (f.infinity < magnitude v)

/-- The order of values: both zeros are equal, and so are all NaNs, above every
number. -/
def rank (f : Format) (v : Pattern f) : WithTop ℤ :=
  if isNan f v then ⊤
  else if v.msb then ((-(scaled f.mantissaBits (magnitude v) : ℤ) : ℤ) : WithTop ℤ)
  else ((scaled f.mantissaBits (magnitude v) : ℤ) : WithTop ℤ)

instance (f : Format) (v c : Pattern f) : Decidable (rank f v = rank f c) :=
  inferInstanceAs (Decidable ((rank f v : WithTop ℤ) = rank f c))

/-- Equal values under different patterns: a zero and the other zero, or two
different NaNs. -/
def tied (f : Format) (v c : Pattern f) : Prop :=
  rank f v = rank f c ∧ v ≠ c

/-- A NaN with the sign bit set against a number. -/
def clashing (f : Format) (v c : Pattern f) : Prop :=
  (isNan f v = true ∧ v.msb = true ∧ isNan f c = false) ∨
    (isNan f c = true ∧ c.msb = true ∧ isNan f v = false)

/-! ## Magnitudes -/

/-- The value of a magnitude grows with the magnitude, across the exponents. -/
theorem scaled_strictMono (m : ℕ) : StrictMono (scaled m) := by
  intro n n' hlt
  have hpos : 0 < 2 ^ m := Nat.two_pow_pos m
  have hn := Nat.div_add_mod n (2 ^ m)
  have hn' := Nat.div_add_mod n' (2 ^ m)
  have hmod : n % 2 ^ m < 2 ^ m := Nat.mod_lt n hpos
  have hmod' : n' % 2 ^ m < 2 ^ m := Nat.mod_lt n' hpos
  have hexp : n / 2 ^ m ≤ n' / 2 ^ m := Nat.div_le_div_right hlt.le
  unfold scaled
  generalize n / 2 ^ m = e at *
  generalize n' / 2 ^ m = e' at *
  generalize n % 2 ^ m = r at *
  generalize n' % 2 ^ m = r' at *
  rcases hexp.eq_or_lt with heq | hexp
  · -- the same exponent: the mantissas decide
    have hman : r < r' := by
      rw [heq] at hn
      omega
    rw [heq]
    split
    · exact hman
    · exact Nat.mul_lt_mul_of_pos_right (by omega) (Nat.two_pow_pos _)
  · -- a greater exponent: one more doubling is enough
    have hzero' : e' ≠ 0 := by omega
    rw [if_neg hzero']
    have hlow : 2 ^ m ≤ (2 ^ m + r') * 2 ^ (e' - 1) :=
      (Nat.le_add_right _ _).trans (Nat.le_mul_of_pos_right _ (Nat.two_pow_pos _))
    split
    · omega
    · rename_i hzero
      calc (2 ^ m + r) * 2 ^ (e - 1)
          < (2 ^ m + 2 ^ m) * 2 ^ (e - 1) :=
            Nat.mul_lt_mul_of_pos_right (by omega) (Nat.two_pow_pos _)
        _ = 2 ^ m * 2 ^ (e - 1 + 1) := by ring
        _ ≤ 2 ^ m * 2 ^ (e' - 1) :=
            Nat.mul_le_mul_left _ (Nat.pow_le_pow_right (by omega) (by omega))
        _ ≤ (2 ^ m + r') * 2 ^ (e' - 1) :=
            Nat.mul_le_mul_right _ (Nat.le_add_right _ _)

theorem toNat_eq_magnitude {w : ℕ} (v : BitVec (w + 1)) :
    v.toNat = (if v.msb then 2 ^ w else 0) + magnitude v := by
  have hlt : v.toNat < 2 ^ (w + 1) := v.isLt
  rw [Nat.pow_succ] at hlt
  have hpos : 0 < 2 ^ w := Nat.two_pow_pos w
  rw [BitVec.msb_eq_decide, magnitude]
  by_cases hsign : 2 ^ w ≤ v.toNat
  · have hmod : v.toNat % 2 ^ w = v.toNat - 2 ^ w := by
      rw [Nat.mod_eq_sub_mod hsign, Nat.mod_eq_of_lt (by omega)]
    simp only [Nat.add_sub_cancel, hsign, decide_true, if_true, hmod]
    omega
  · simp only [Nat.add_sub_cancel, hsign, decide_false, Bool.false_eq_true, if_false, zero_add]
    rw [Nat.mod_eq_of_lt (by omega)]

theorem totalKey_injective {w : ℕ} :
    Function.Injective (totalKey : BitVec (w + 1) → ℤ) := by
  intro v c h
  have hv := toNat_eq_magnitude v
  have hc := toNat_eq_magnitude c
  apply BitVec.eq_of_toNat_eq
  rw [hv, hc]
  unfold totalKey at h
  split at h <;> split at h <;> simp_all <;> omega

/-! ## Where the orders disagree -/

variable {f : Format}

theorem rank_of_isNan {v : Pattern f} (h : isNan f v = true) : rank f v = ⊤ := by
  simp [rank, h]

def signedScaled (f : Format) (v : Pattern f) : ℤ :=
  if v.msb then -(scaled f.mantissaBits (magnitude v) : ℤ) else scaled f.mantissaBits (magnitude v)

theorem rank_of_not_isNan {v : Pattern f} (h : isNan f v = false) :
    rank f v = (signedScaled f v : WithTop ℤ) := by
  cases hsign : v.msb <;> simp [rank, signedScaled, h, hsign]

/-- Among numbers the two orders agree. -/
theorem totalKey_lt_of_signedScaled_lt {v c : Pattern f}
    (h : signedScaled f v < signedScaled f c) : totalKey v < totalKey c := by
  have hmono := scaled_strictMono f.mantissaBits
  unfold signedScaled at h
  unfold totalKey
  cases hsv : v.msb <;> cases hsc : c.msb <;>
    simp only [hsv, hsc, Bool.false_eq_true, if_false, if_true] at h ⊢
  · have hmag := hmono.lt_iff_lt.mp (Int.ofNat_lt.mp h)
    omega
  · omega
  · omega
  · have hmag := hmono.lt_iff_lt.mp (Int.ofNat_lt.mp (Int.neg_lt_neg_iff.mp h))
    omega

theorem infinity_lt_of_isNan {v : Pattern f} (h : isNan f v = true) :
    f.infinity < magnitude v := by
  simpa [isNan] using h

theorem magnitude_le_of_not_isNan {v : Pattern f} (h : isNan f v = false) :
    magnitude v ≤ f.infinity := by
  simpa [isNan] using h

/-- Only a clashing pair is ordered one way as patterns and the other way as
values. -/
theorem inverted_iff_clashing (v c : Pattern f) :
    Inverted totalKey (rank f) v c ↔ clashing f v c := by
  have hlt : ∀ a b : Pattern f, rank f a < rank f b ∧ totalKey b < totalKey a ↔
      isNan f b = true ∧ b.msb = true ∧ isNan f a = false := by
    intro a b
    constructor
    · rintro ⟨hrank, hkey⟩
      have ha : isNan f a = false := by
        by_contra hnan
        rw [rank_of_isNan (by simpa using hnan)] at hrank
        exact not_top_lt hrank
      cases hb : isNan f b with
      | false =>
          rw [rank_of_not_isNan ha, rank_of_not_isNan hb, WithTop.coe_lt_coe] at hrank
          exact absurd (totalKey_lt_of_signedScaled_lt hrank) (lt_asymm hkey)
      | true =>
          refine ⟨rfl, ?_, ha⟩
          have hmb := infinity_lt_of_isNan hb
          have hma := magnitude_le_of_not_isNan ha
          by_contra hsign
          simp only [totalKey, hsign, if_false] at hkey
          split at hkey <;> omega
    · rintro ⟨hb, hsign, ha⟩
      refine ⟨?_, ?_⟩
      · rw [rank_of_isNan hb, rank_of_not_isNan ha]
        exact WithTop.coe_lt_top _
      · have hmb := infinity_lt_of_isNan hb
        have hma := magnitude_le_of_not_isNan ha
        simp only [totalKey, hsign, if_true]
        split <;> omega
  unfold Inverted clashing
  rw [hlt v c, hlt c v]
  exact or_comm

theorem tied_iff (v c : Pattern f) : Tied totalKey (rank f) v c ↔ tied f v c := by
  unfold Tied tied
  rw [totalKey_injective.ne_iff]

theorem rank_eq_of_totalKey_eq (v c : Pattern f) (h : totalKey v = totalKey c) :
    rank f v = rank f c := by
  rw [totalKey_injective h]

/-- Two patterns of one number are one pattern, or the two zeros. -/
theorem eq_or_zero_of_rank_eq {v c : Pattern f} (hc : isNan f c = false)
    (h : rank f v = rank f c) : v = c ∨ magnitude v = 0 ∧ magnitude c = 0 := by
  have hv : isNan f v = false := by
    by_contra hnan
    rw [rank_of_isNan (by simpa using hnan), rank_of_not_isNan hc] at h
    exact WithTop.top_ne_coe h
  rw [rank_of_not_isNan hv, rank_of_not_isNan hc, WithTop.coe_inj] at h
  have hmono := scaled_strictMono f.mantissaBits
  have hzero : scaled f.mantissaBits 0 = 0 := by simp [scaled]
  have hpos : ∀ n, n ≠ 0 → 0 < scaled f.mantissaBits n := by
    intro n hn
    have hlt := hmono (Nat.pos_of_ne_zero hn)
    rwa [hzero] at hlt
  unfold signedScaled at h
  by_cases hsign : v.msb = c.msb
  · left
    have hmag : magnitude v = magnitude c := by
      apply hmono.injective
      rw [hsign] at h
      split at h <;> omega
    apply BitVec.eq_of_toNat_eq
    rw [toNat_eq_magnitude, toNat_eq_magnitude, hsign, hmag]
  · right
    -- Of opposite signs only zeros are equal.
    have hsum : scaled f.mantissaBits (magnitude v) = 0 ∧
        scaled f.mantissaBits (magnitude c) = 0 := by
      cases hsv : v.msb <;> cases hsc : c.msb <;>
        simp only [hsv, hsc, Bool.false_eq_true, if_false, if_true, not_true] at h hsign <;>
        omega
    constructor
    · by_contra hne
      have := hpos _ hne
      omega
    · by_contra hne
      have := hpos _ hne
      omega

end DeltaX.Support.IeeeOrder
