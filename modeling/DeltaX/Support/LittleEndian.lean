import Mathlib.Data.Nat.Basic
import Mathlib.Tactic.Ring
/-!
# Little-endian words

A number as a fixed count of bytes, the lowest first.
-/

namespace DeltaX.Support.LittleEndian

/-- The lowest `n` bytes of a number. -/
def toLe : ℕ → ℕ → List UInt8
  | 0, _ => []
  | n + 1, v => UInt8.ofNat v :: toLe n (v / 256)

def ofLe : List UInt8 → ℕ
  | [] => 0
  | b :: bytes => b.toNat + 256 * ofLe bytes

@[simp] theorem length_toLe (n v : ℕ) : (toLe n v).length = n := by
  induction n generalizing v with
  | zero => rfl
  | succ n ih => rw [toLe, List.length_cons, ih]

theorem ofLe_toLe_mod (n v : ℕ) : ofLe (toLe n v) = v % 256 ^ n := by
  induction n generalizing v with
  | zero => rw [toLe, ofLe, pow_zero, Nat.mod_one]
  | succ n ih =>
      have hbyte : (UInt8.ofNat v).toNat = v % 256 := UInt8.toNat_ofNat'
      rw [toLe, ofLe, ih, hbyte, pow_succ', Nat.mod_mul]

/-- A number that fits is read back. -/
theorem ofLe_toLe {n v : ℕ} (h : v < 256 ^ n) : ofLe (toLe n v) = v := by
  rw [ofLe_toLe_mod, Nat.mod_eq_of_lt h]

/-- Numbers that fit have bytes of their own. -/
theorem toLe_inj {n v w : ℕ} (hv : v < 256 ^ n) (hw : w < 256 ^ n) (h : toLe n v = toLe n w) :
    v = w := by
  rw [← ofLe_toLe hv, h, ofLe_toLe hw]

end DeltaX.Support.LittleEndian
