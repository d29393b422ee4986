import Mathlib.Data.List.Basic
import Mathlib.Data.BitVec
/-!
# Bits of a byte list

A list of bytes as a bitmap: bit `pos` is bit `pos % 8` of byte `pos / 8`.
Reading past the end gives 0, writing past the end does nothing.
-/

namespace DeltaX.Support.ByteBits

abbrev Bytes : Type := List (BitVec 8)

def setBit (bytes : Bytes) (pos : ℕ) : Bytes :=
  bytes.modify (pos / 8) (· ||| 1#8 <<< (pos % 8))

/-- Bit `pos` is set. -/
def testBit (bytes : Bytes) (pos : ℕ) : Bool :=
  bytes[pos / 8]?.getD 0#8 &&& 1#8 <<< (pos % 8) ≠ 0#8

def setBits (bytes : Bytes) (positions : List ℕ) : Bytes := positions.foldl setBit bytes

@[simp] theorem length_setBit (bytes : Bytes) (pos : ℕ) :
    (setBit bytes pos).length = bytes.length := by
  simp [setBit]

@[simp] theorem length_setBits (bytes : Bytes) (positions : List ℕ) :
    (setBits bytes positions).length = bytes.length := by
  induction positions generalizing bytes with
  | nil => rfl
  | cons pos positions ih =>
      rw [setBits, List.foldl_cons, ← setBits, ih, length_setBit]

theorem and_one_shiftLeft_ne_zero_iff (byte : BitVec 8) {k : ℕ} (hk : k < 8) :
    byte &&& 1#8 <<< k ≠ 0#8 ↔ byte.getLsbD k = true := by
  rw [← BitVec.twoPow_eq, BitVec.and_twoPow]
  cases byte.getLsbD k with
  | false => simp
  | true =>
      simp only [if_true, ne_eq, iff_true]
      intro h
      have hbit := congrArg (fun b => BitVec.getLsbD b k) h
      simp [hk] at hbit

theorem testBit_eq (bytes : Bytes) (pos : ℕ) :
    testBit bytes pos = (bytes[pos / 8]?.getD 0#8).getLsbD (pos % 8) := by
  have hlt : pos % 8 < 8 := Nat.mod_lt _ (by decide)
  unfold testBit
  simp only [and_one_shiftLeft_ne_zero_iff _ hlt, Bool.decide_eq_true]

theorem testBit_setBit (bytes : Bytes) (pos q : ℕ) :
    testBit (setBit bytes q) pos =
      (testBit bytes pos || decide (pos = q ∧ q < 8 * bytes.length)) := by
  have hlt : pos % 8 < 8 := Nat.mod_lt _ (by decide)
  have hqlt : q % 8 < 8 := Nat.mod_lt _ (by decide)
  rw [testBit_eq, testBit_eq, setBit, List.getElem?_modify]
  by_cases hbyte : q / 8 = pos / 8
  · cases hget : bytes[pos / 8]? with
    | none =>
        have hend : ¬ q < 8 * bytes.length := by
          have := List.getElem?_eq_none_iff.mp hget
          omega
        simp [hend]
    | some byte =>
        have hend : q < 8 * bytes.length := by
          have := (List.getElem?_eq_some_iff.mp hget).1
          omega
        have hpos : q % 8 = pos % 8 ↔ pos = q := by omega
        simp only [hbyte, if_true, Option.map_eq_map, Option.map_some, Option.getD_some,
          BitVec.getLsbD_or, ← BitVec.twoPow_eq, BitVec.getLsbD_twoPow, hqlt, hend, hpos,
          decide_true, Bool.true_and, and_true]
  · have hne : pos ≠ q := by
      rintro rfl
      exact hbyte rfl
    simp [hbyte, hne]

theorem testBit_setBits (bytes : Bytes) (positions : List ℕ) (pos : ℕ) :
    testBit (setBits bytes positions) pos =
      (testBit bytes pos || decide (pos ∈ positions ∧ pos < 8 * bytes.length)) := by
  induction positions generalizing bytes with
  | nil => simp [setBits]
  | cons q positions ih =>
      rw [setBits, List.foldl_cons, ← setBits, ih, testBit_setBit, length_setBit]
      by_cases hq : pos = q <;> by_cases hmem : pos ∈ positions <;>
        by_cases hlt : pos < 8 * bytes.length <;> simp_all

theorem testBit_replicate_zero (n pos : ℕ) :
    testBit (List.replicate n 0#8) pos = false := by
  rw [testBit_eq, List.getElem?_replicate]
  split <;> simp

end DeltaX.Support.ByteBits
