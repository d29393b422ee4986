import DeltaX.Support.IeeeOrder
import Mathlib.Data.Nat.Log
import Mathlib.Data.Rat.Floor
import Mathlib.Tactic.Linarith
/-!
# Rounding to the nearest value

A nonnegative number is rounded to the magnitude with the nearest value, and to the even one of
two that are equally near.  Numbers are in units of the least subnormal.  For the rounding an
infinity has the value that would come after the greatest finite one.
-/

namespace DeltaX.Support.IeeeOrder

/-- The greatest magnitude whose value is at most `n` units. -/
def magnitudeBelow (mantissaBits n : ℕ) : ℕ :=
  (Nat.log 2 n - mantissaBits) * 2 ^ mantissaBits + n / 2 ^ (Nat.log 2 n - mantissaBits)

/-- The number half way between a magnitude and the next one. -/
def middle (mantissaBits n : ℕ) : ℚ :=
  (scaled mantissaBits n + scaled mantissaBits (n + 1)) / 2

def roundMagnitude (f : Format) (x : ℚ) : ℕ :=
  let n := magnitudeBelow f.mantissaBits ⌊x⌋₊
  if x < middle f.mantissaBits n ∨ (x = middle f.mantissaBits n ∧ n % 2 = 0) then min n f.infinity
  else min (n + 1) f.infinity

/-- The number is nearer to the value of `n` than to every other value. -/
def Nearest (f : Format) (x : ℚ) (n : ℕ) : Prop :=
  ∀ n' ≤ f.infinity, n' ≠ n → |x - scaled f.mantissaBits n| < |x - scaled f.mantissaBits n'|

/-! ## The magnitude below -/

variable {b n : ℕ}

/-- Magnitudes with the same exponent are equally far from each other, up to and including the
first one with the next exponent. -/
theorem scaled_exponent (e : ℕ) {q : ℕ} (hlow : 2 ^ b ≤ q) (hhigh : q ≤ 2 ^ (b + 1)) :
    scaled b (e * 2 ^ b + q) = q * 2 ^ e := by
  have hpos : 0 < 2 ^ b := Nat.two_pow_pos b
  rw [Nat.pow_succ] at hhigh
  rcases hhigh.eq_or_lt with heq | hlt
  · have hsplit : e * 2 ^ b + q = (e + 2) * 2 ^ b := by rw [heq]; ring
    rw [scaled, hsplit, Nat.mul_div_cancel _ hpos, Nat.mul_mod_left, if_neg (by omega), heq]
    calc (2 ^ b + 0) * 2 ^ (e + 2 - 1) = 2 ^ b * 2 ^ (e + 1) := by rfl
      _ = 2 ^ b * 2 * 2 ^ e := by ring
  · have hsplit : e * 2 ^ b + q = (q - 2 ^ b) + (e + 1) * 2 ^ b := by
      rw [Nat.add_mul, Nat.one_mul]
      omega
    have hdiv : (q - 2 ^ b + (e + 1) * 2 ^ b) / 2 ^ b = e + 1 := by
      rw [Nat.add_mul_div_right _ _ hpos, Nat.div_eq_of_lt (by omega), Nat.zero_add]
    have hmod : (q - 2 ^ b + (e + 1) * 2 ^ b) % 2 ^ b = q - 2 ^ b := by
      rw [Nat.add_mul_mod_self_right, Nat.mod_eq_of_lt (by omega)]
    rw [scaled, hsplit, hdiv, hmod, if_neg (by omega), Nat.add_sub_cancel,
      Nat.add_sub_cancel' hlow]

theorem scaled_of_lt (h : n < 2 ^ b) : scaled b n = n := by
  rw [scaled, Nat.div_eq_of_lt h, if_pos rfl, Nat.mod_eq_of_lt h]

theorem magnitudeBelow_spec (b n : ℕ) :
    scaled b (magnitudeBelow b n) ≤ n ∧ n < scaled b (magnitudeBelow b n + 1) := by
  unfold magnitudeBelow
  rcases lt_or_ge n (2 ^ b) with hsmall | hlarge
  · -- below the least number with an implicit bit
    have hlog : Nat.log 2 n - b = 0 := by
      have := Nat.log_mono_right (b := 2) hsmall.le
      rw [Nat.log_pow (by omega)] at this
      omega
    rw [hlog, Nat.zero_mul, Nat.zero_add, Nat.pow_zero, Nat.div_one, scaled_of_lt hsmall]
    refine ⟨le_rfl, ?_⟩
    calc n = scaled b n := (scaled_of_lt hsmall).symm
      _ < scaled b (n + 1) := scaled_strictMono b (Nat.lt_succ_self n)
  · have hn : n ≠ 0 := by
      have := Nat.two_pow_pos b
      omega
    have hb : b ≤ Nat.log 2 n := Nat.le_log_of_pow_le (by omega) hlarge
    obtain ⟨e, he⟩ := Nat.exists_eq_add_of_le hb
    have hexp : Nat.log 2 n - b = e := by omega
    have hpow : 2 ^ b * 2 ^ e ≤ n := by
      rw [← Nat.pow_add, ← he]
      exact Nat.pow_log_le_self 2 hn
    have hnext : n < 2 ^ (b + 1) * 2 ^ e := by
      rw [← Nat.pow_add, show b + 1 + e = Nat.log 2 n + 1 by omega]
      exact Nat.lt_pow_succ_log_self (by omega) n
    have hlow : 2 ^ b ≤ n / 2 ^ e := (Nat.le_div_iff_mul_le (Nat.two_pow_pos e)).mpr hpow
    have hhigh : n / 2 ^ e < 2 ^ (b + 1) := Nat.div_lt_of_lt_mul (by rwa [Nat.mul_comm] at hnext)
    rw [hexp, scaled_exponent e hlow hhigh.le, Nat.add_assoc,
      scaled_exponent e (by omega) (by omega)]
    exact ⟨Nat.div_mul_le_self n _, Nat.lt_mul_of_div_lt (Nat.lt_succ_self _) (Nat.two_pow_pos e)⟩

/-! ## The nearest value -/

theorem roundMagnitude_of_nearest {f : Format} {x : ℚ} (hx : 0 ≤ x) (hn : n < f.infinity)
    (h : Nearest f x n) : roundMagnitude f x = n := by
  obtain ⟨hlow, hhigh⟩ := magnitudeBelow_spec f.mantissaBits ⌊x⌋₊
  have hbelow : (scaled f.mantissaBits (magnitudeBelow f.mantissaBits ⌊x⌋₊) : ℚ) ≤ x :=
    (Nat.le_floor_iff hx).mp hlow
  have habove : x < scaled f.mantissaBits (magnitudeBelow f.mantissaBits ⌊x⌋₊ + 1) :=
    (Nat.floor_lt hx).mp hhigh
  unfold roundMagnitude
  generalize magnitudeBelow f.mantissaBits ⌊x⌋₊ = m at hbelow habove ⊢
  have hmono : ∀ {i j : ℕ}, i < j →
      (scaled f.mantissaBits i : ℚ) < scaled f.mantissaBits j := fun hij => by
    exact_mod_cast scaled_strictMono f.mantissaBits hij
  have hmono' : ∀ {i j : ℕ}, i ≤ j →
      (scaled f.mantissaBits i : ℚ) ≤ scaled f.mantissaBits j := fun hij => by
    exact_mod_cast (scaled_strictMono f.mantissaBits).monotone hij
  -- a value between the number and that of `n` would be nearer
  have hle : n ≤ m + 1 := by
    by_contra hlt
    have hnext := h (m + 1) (by omega) (by omega)
    have := hmono (show m + 1 < n by omega)
    rw [abs_of_nonpos (by linarith), abs_of_nonpos (by linarith)] at hnext
    linarith
  have hge : m ≤ n := by
    by_contra hlt
    have hnext := h (n + 1) (by omega) (by omega)
    have := hmono (Nat.lt_succ_self n)
    have := hmono' (show n + 1 ≤ m by omega)
    rw [abs_of_nonneg (by linarith), abs_of_nonneg (by linarith)] at hnext
    linarith
  unfold middle
  rcases hge.eq_or_lt with rfl | hgt
  · have hnext := h (m + 1) (by omega) (by omega)
    rw [abs_of_nonneg (by linarith), abs_of_nonpos (by linarith)] at hnext
    rw [if_pos (Or.inl (by linarith)), min_eq_left hn.le]
  · obtain rfl : n = m + 1 := by omega
    have hnext := h m (by omega) (by omega)
    rw [abs_of_nonpos (by linarith), abs_of_nonneg (by linarith)] at hnext
    have hpast : (scaled f.mantissaBits m + scaled f.mantissaBits (m + 1) : ℚ) / 2 < x := by
      linarith
    rw [if_neg (by rintro (hx | ⟨hx, -⟩) <;> linarith), min_eq_left hn.le]

end DeltaX.Support.IeeeOrder
