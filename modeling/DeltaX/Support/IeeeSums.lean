import DeltaX.Support.IeeeRounding
/-!
# Sums of floating-point values

Values are in units of the least subnormal, as `rank` gives them: the zeros are one value, an
infinity is the value after the greatest finite one, and the NaNs are the one at the top.  A sum
is rounded to the nearest value of the format.
-/

namespace DeltaX.Support.IeeeOrder

namespace Format

def one (f : Format) : ℕ := 2 ^ (2 ^ (f.exponentBits - 1) - 2 + f.mantissaBits)

def infinite (f : Format) : ℤ := scaled f.mantissaBits f.infinity

end Format

def roundValue (f : Format) (x : ℚ) : ℤ :=
  if x < 0 then -(scaled f.mantissaBits (roundMagnitude f (-x)) : ℤ)
  else scaled f.mantissaBits (roundMagnitude f x)

/-- A function of finite values, rounded; an infinity stays what it is in the target format. -/
def roundFinite (f g : Format) (x : ℤ → ℚ) (v : ℤ) : ℤ :=
  if v = f.infinite then g.infinite
  else if v = -f.infinite then -g.infinite
  else roundValue g (x v)

/-- The order of values, with NaN at the top. -/
def lessValue : WithTop ℤ → WithTop ℤ → Bool
  | WithTop.some a, WithTop.some b => decide (a < b)
  | WithTop.some _, none => true
  | none, _ => false

/-- The sum of two values; infinities of opposite signs have none. -/
def addValues (f : Format) : WithTop ℤ → WithTop ℤ → WithTop ℤ
  | WithTop.some a, WithTop.some b =>
      if |a| = f.infinite then if |b| = f.infinite ∧ a ≠ b then ⊤ else (a : WithTop ℤ)
      else (roundFinite f f (fun b => a + b) b : WithTop ℤ)
  | _, _ => ⊤

def convertValue (f g : Format) (v : WithTop ℤ) : WithTop ℤ :=
  v.map (roundFinite f g fun v => (v * g.one : ℚ) / f.one)

def divideValue (f : Format) (v : WithTop ℤ) (n : ℕ) : WithTop ℤ :=
  v.map (roundFinite f f fun v => (v : ℚ) / n)

def sumValues (f : Format) (vs : List (WithTop ℤ)) : WithTop ℤ :=
  vs.foldl (addValues f) 0

/-- A sum from left to right, from its first value on. -/
def sumFromFirst (f : Format) : List (WithTop ℤ) → Option (WithTop ℤ)
  | [] => none
  | v :: vs => some (vs.foldl (addValues f) v)

/-! ## Values of patterns -/

theorem scaled_zero (b : ℕ) : scaled b 0 = 0 := by simp [scaled]

/-- A value is nearest to itself. -/
theorem roundMagnitude_scaled {f : Format} {n : ℕ} (hn : n < f.infinity) :
    roundMagnitude f (scaled f.mantissaBits n) = n := by
  apply roundMagnitude_of_nearest (Nat.cast_nonneg _) hn
  intro n' _ hne
  have hvalues : scaled f.mantissaBits n ≠ scaled f.mantissaBits n' :=
    fun heq => hne ((scaled_strictMono f.mantissaBits).injective heq).symm
  rw [sub_self, abs_zero, abs_pos, sub_ne_zero]
  exact_mod_cast hvalues

theorem roundFinite_signedScaled {f : Format} {v : Pattern f} (h : isNan f v = false) :
    roundFinite f f (fun v => v) (signedScaled f v) = signedScaled f v := by
  have hle := magnitude_le_of_not_isNan h
  unfold roundFinite
  split
  · rename_i heq
    exact heq.symm
  · rename_i hpos
    split
    · rename_i heq
      exact heq.symm
    · rename_i hneg
      have hlt : magnitude v < f.infinity := by
        apply lt_of_le_of_ne hle
        intro heq
        unfold signedScaled Format.infinite at hpos hneg
        rw [heq] at hpos hneg
        cases hsign : v.msb <;> simp_all
      have hround := roundMagnitude_scaled hlt
      unfold roundValue signedScaled
      cases hsign : v.msb with
      | false =>
          have hnot : ¬ (scaled f.mantissaBits (magnitude v) : ℚ) < 0 := by
            exact_mod_cast Nat.not_lt_zero _
          simp [hnot, hround]
      | true =>
          by_cases hzero : scaled f.mantissaBits (magnitude v) = 0
          · have hmag : magnitude v = 0 := by
              apply (scaled_strictMono f.mantissaBits).injective
              rw [hzero, scaled_zero]
            rw [hmag] at hround
            simp [hmag, scaled_zero] at hround ⊢
            simp [hround, scaled_zero]
          · have hneg : -(scaled f.mantissaBits (magnitude v) : ℚ) < 0 := by
              have hpos : 0 < scaled f.mantissaBits (magnitude v) := Nat.pos_of_ne_zero hzero
              have hpos : (0 : ℚ) < scaled f.mantissaBits (magnitude v) := by exact_mod_cast hpos
              linarith
            simp [hneg, hround]

theorem addValues_zero_rank (f : Format) (v : Pattern f) (hf : f.infinite ≠ 0) :
    addValues f 0 (rank f v) = rank f v := by
  cases hnan : isNan f v with
  | true =>
      rw [rank_of_isNan hnan]
      rfl
  | false =>
      rw [rank_of_not_isNan hnan]
      have hround := roundFinite_signedScaled hnan
      have hzero : ¬ |(0 : ℤ)| = f.infinite := by
        rw [abs_zero]
        exact hf.symm
      calc addValues f 0 (signedScaled f v : WithTop ℤ)
          = (roundFinite f f (fun b => (0 : ℤ) + b) (signedScaled f v) : WithTop ℤ) := if_neg hzero
        _ = (signedScaled f v : WithTop ℤ) := by simp only [Int.cast_zero, zero_add, hround]

theorem sumFromFirst_map_rank (f : Format) (hf : f.infinite ≠ 0) {vs : List (Pattern f)}
    (hvs : vs ≠ []) :
    sumFromFirst f (vs.map (rank f)) = some (sumValues f (vs.map (rank f))) := by
  cases vs with
  | nil => exact absurd rfl hvs
  | cons v vs =>
      rw [List.map_cons, sumFromFirst, sumValues, List.foldl_cons, addValues_zero_rank f v hf]

end DeltaX.Support.IeeeOrder
