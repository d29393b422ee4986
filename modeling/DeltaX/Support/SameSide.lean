import DeltaX.Support.KeySpan
import Mathlib.Order.Lattice
/-!
# Two constants on one side of a value

A comparison with one constant is the comparison with another one on every value that the two
constants do not enclose.
-/

namespace DeltaX.Support.KeySpan

variable {α β : Type*} [LinearOrder α] [LinearOrder β]

/-- What keeps the three ways two values can stand keeps their order. -/
theorem lt_iff_lt_of_imp {x c : α} {x' c' : β} (hlt : x < c → x' < c') (heq : x = c → x' = c')
    (hgt : c < x → c' < x') : x' < c' ↔ x < c := by
  constructor
  · intro h
    rcases lt_trichotomy x c with hx | hx | hx
    · exact hx
    · exact absurd h (heq hx).not_lt
    · exact absurd h (hgt hx).not_gt
  · exact hlt

namespace Comparison

/-- The value does not tell the constants apart: for an ordering it is not between them, where the
comparison says which of the two ends belongs to what is between. -/
def SameSide (c c' x : α) : Comparison → Prop
  | eq | ne => c = c' ∨ (x ≠ c ∧ x ≠ c')
  | lt | ge => ¬ (min c c' ≤ x ∧ x < max c c')
  | le | gt => ¬ (min c c' < x ∧ x ≤ max c c')

theorem between_iff {p q : Prop} {c c' x : α} (hp : p ↔ x < c) (hq : q ↔ x < c') :
    (p ↔ q) ↔ ¬ (min c c' ≤ x ∧ x < max c c') := by
  rw [hp, hq, min_le_iff, lt_max_iff]
  rcases lt_or_ge x c with h | h <;> rcases lt_or_ge x c' with h' | h' <;>
    simp [h, h', not_le.mpr, not_lt.mpr]

theorem between_iff' {p q : Prop} {c c' x : α} (hp : p ↔ x ≤ c) (hq : q ↔ x ≤ c') :
    (p ↔ q) ↔ ¬ (min c c' < x ∧ x ≤ max c c') := by
  rw [hp, hq, min_lt_iff, le_max_iff]
  rcases le_or_gt x c with h | h <;> rcases le_or_gt x c' with h' | h' <;>
    simp [h, h', not_le.mpr, not_lt.mpr]

theorem holds_iff_holds (cmp : Comparison) (c c' x : α) :
    (Holds x c cmp ↔ Holds x c' cmp) ↔ SameSide c c' x cmp := by
  cases cmp with
  | eq =>
      show (x = c ↔ x = c') ↔ _
      constructor
      · intro h
        by_cases hx : x = c
        · exact Or.inl (hx.symm.trans (h.mp hx))
        · exact Or.inr ⟨hx, fun hx' => hx (h.mpr hx')⟩
      · rintro (rfl | ⟨hx, hx'⟩)
        · exact Iff.rfl
        · exact iff_of_false hx hx'
  | ne =>
      show (x ≠ c ↔ x ≠ c') ↔ _
      constructor
      · intro h
        by_cases hx : x = c
        · exact Or.inl (hx.symm.trans (not_not.mp fun hx' => h.mpr hx' hx))
        · exact Or.inr ⟨hx, h.mp hx⟩
      · rintro (rfl | ⟨hx, hx'⟩)
        · exact Iff.rfl
        · exact iff_of_true hx hx'
  | lt => exact between_iff Iff.rfl Iff.rfl
  | ge =>
      show (c ≤ x ↔ c' ≤ x) ↔ _
      rw [← not_lt, ← not_lt, not_iff_not]
      exact between_iff Iff.rfl Iff.rfl
  | le => exact between_iff' Iff.rfl Iff.rfl
  | gt =>
      show (c < x ↔ c' < x) ↔ _
      rw [← not_le, ← not_le, not_iff_not]
      exact between_iff' Iff.rfl Iff.rfl

/-- Comparing is all about which of the two is less. -/
theorem holds_congr {x c : α} {x' c' : β} (hlt : x < c ↔ x' < c') (hgt : c < x ↔ c' < x')
    (cmp : Comparison) : Holds x c cmp ↔ Holds x' c' cmp := by
  have heq : x = c ↔ x' = c' := by
    rw [eq_iff_le_not_lt, eq_iff_le_not_lt, ← not_lt, ← not_lt, hlt, hgt]
  cases cmp with
  | eq => exact heq
  | ne => exact not_congr heq
  | lt => exact hlt
  | le => exact (not_lt.symm.trans (not_congr hgt)).trans not_lt
  | gt => exact hgt
  | ge => exact (not_lt.symm.trans (not_congr hlt)).trans not_lt

end Comparison

end DeltaX.Support.KeySpan
