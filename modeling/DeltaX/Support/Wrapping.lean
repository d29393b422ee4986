import Mathlib.Algebra.Order.Ring.Int
import Mathlib.Tactic.NormNum
/-!
# Numbers that wrap around at 32 bits

An integer as an `i32` holds it.  Counting up from a number in range gives different values for
`2 ^ 32` steps.
-/

namespace DeltaX.Support.Wrapping

/-- `as i32` of a wider integer, and addition on `i32` in a release build. -/
def wrapI32 (n : ℤ) : ℤ := n.bmod (2 ^ 32)

theorem wrapI32_of_lt {n : ℤ} (hlow : -2 ^ 31 ≤ n) (hhigh : n < 2 ^ 31) : wrapI32 n = n := by
  unfold wrapI32
  rw [Int.bmod_def]
  omega

end DeltaX.Support.Wrapping
