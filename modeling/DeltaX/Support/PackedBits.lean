import DeltaX.Support.ByteBits
/-!
# Words in a bitmap

Words stored in a byte list at bit positions, the lowest bit first: reading a field of `n` bits
at a position, ORing a byte in, and the little-endian bytes of a word as the aligned case.
-/

namespace DeltaX.Support.PackedBits

open ByteBits

/-- The `n` bits from position `pos` on, as a word. -/
def fieldAt (w : ℕ) (bytes : Bytes) (pos n : ℕ) : BitVec w :=
  (BitVec.ofBoolListLE ((List.range n).map fun i => testBit bytes (pos + i))).setWidth w

/-- `count` fields of `n` bits from position `pos` on. -/
def fieldsAt (w : ℕ) (bytes : Bytes) (pos n count : ℕ) : List (BitVec w) :=
  (List.range count).map fun j => fieldAt w bytes (pos + j * n) n

@[simp] theorem getLsbD_fieldAt (w : ℕ) (bytes : Bytes) (pos n i : ℕ) :
    (fieldAt w bytes pos n).getLsbD i =
      (decide (i < w) && (decide (i < n) && testBit bytes (pos + i))) := by
  rw [fieldAt, BitVec.getLsbD_setWidth, BitVec.getLsbD_ofBoolListLE]
  by_cases hi : i < n
  · simp [hi, List.getD]
  · simp [hi, List.getD]

theorem fieldsAt_succ (w : ℕ) (bytes : Bytes) (pos n count : ℕ) :
    fieldsAt w bytes pos n (count + 1) =
      fieldAt w bytes pos n :: fieldsAt w bytes (pos + n) n count := by
  rw [fieldsAt, List.range_succ_eq_map, List.map_cons, List.map_map, Nat.zero_mul, Nat.add_zero]
  congr 1
  apply List.map_congr_left
  intro j _
  show fieldAt w bytes (pos + (j + 1) * n) n = fieldAt w bytes (pos + n + j * n) n
  congr 1
  rw [Nat.add_mul, Nat.one_mul]
  omega

theorem testBit_of_ge {bytes : Bytes} {pos : ℕ} (h : 8 * bytes.length ≤ pos) :
    testBit bytes pos = false := by
  have hnone : bytes[pos / 8]? = none := List.getElem?_eq_none_iff.mpr (by omega)
  rw [testBit_eq, hnone]
  exact BitVec.getLsbD_zero

theorem testBit_getElem {bytes : Bytes} {pos : ℕ} {byte : BitVec 8}
    (h : bytes[pos / 8]? = some byte) : testBit bytes pos = byte.getLsbD (pos % 8) := by
  rw [testBit_eq, h]
  rfl

theorem testBit_cons (byte : BitVec 8) (bytes : Bytes) (pos : ℕ) :
    testBit (byte :: bytes) pos =
      if pos < 8 then byte.getLsbD pos else testBit bytes (pos - 8) := by
  by_cases h : pos < 8
  · have hdiv : pos / 8 = 0 := by omega
    have hmod : pos % 8 = pos := by omega
    rw [if_pos h, testBit_eq, hdiv, hmod]
    rfl
  · have hdiv : pos / 8 = (pos - 8) / 8 + 1 := by omega
    have hmod : pos % 8 = (pos - 8) % 8 := by omega
    rw [if_neg h, testBit_eq, testBit_eq, hdiv, hmod, List.getElem?_cons_succ]

theorem testBit_drop (bytes : Bytes) (n pos : ℕ) :
    testBit (bytes.drop n) pos = testBit bytes (8 * n + pos) := by
  have hdiv : (8 * n + pos) / 8 = n + pos / 8 := by omega
  have hmod : (8 * n + pos) % 8 = pos % 8 := by omega
  rw [testBit_eq, testBit_eq, List.getElem?_drop, hdiv, hmod]

theorem testBit_take {bytes : Bytes} {n pos : ℕ} (h : pos < 8 * n) :
    testBit (bytes.take n) pos = testBit bytes pos := by
  rw [testBit_eq, testBit_eq, List.getElem?_take_of_lt (by omega)]

/-! ## Writing -/

/-- OR a byte into byte `idx`. -/
def orAt (bytes : Bytes) (idx : ℕ) (byte : BitVec 8) : Bytes := bytes.modify idx (· ||| byte)

@[simp] theorem length_orAt (bytes : Bytes) (idx : ℕ) (byte : BitVec 8) :
    (orAt bytes idx byte).length = bytes.length := by
  simp [orAt]

theorem testBit_orAt {bytes : Bytes} {idx : ℕ} (h : idx < bytes.length) (byte : BitVec 8)
    (pos : ℕ) : testBit (orAt bytes idx byte) pos =
      (testBit bytes pos || (decide (pos / 8 = idx) && byte.getLsbD (pos % 8))) := by
  rw [testBit_eq, testBit_eq, orAt, List.getElem?_modify]
  by_cases hidx : pos / 8 = idx
  · subst hidx
    simp [List.getElem?_eq_getElem h]
  · simp [hidx, Ne.symm hidx]

theorem getLsbD_lowMask {w t : ℕ} (h : t < w) (i : ℕ) :
    (1#w <<< t - 1#w).getLsbD i = decide (i < t) := by
  have hlt : 2 ^ t < 2 ^ w := Nat.pow_lt_pow_right (by decide) h
  have hpos : 1 ≤ 2 ^ t := Nat.one_le_two_pow
  have hone : 1 % 2 ^ w = 1 := Nat.mod_eq_of_lt (by omega)
  have hvalue : (1#w <<< t - 1#w).toNat = 2 ^ t - 1 := by
    rw [BitVec.toNat_sub_of_le]
    · rw [BitVec.toNat_shiftLeft, BitVec.toNat_ofNat, hone, Nat.shiftLeft_eq, Nat.one_mul,
        Nat.mod_eq_of_lt hlt]
    · rw [BitVec.le_def, BitVec.toNat_shiftLeft, BitVec.toNat_ofNat, hone, Nat.shiftLeft_eq,
        Nat.one_mul, Nat.mod_eq_of_lt hlt]
      exact hpos
  rw [BitVec.getLsbD, hvalue, Nat.testBit_two_pow_sub_one]

/-! ## Little-endian bytes -/

/-- The lowest `n` bytes of a word, the lowest first. -/
def leBytes {w : ℕ} (n : ℕ) (v : BitVec w) : Bytes :=
  (List.range n).map fun i => (v >>> (8 * i)).setWidth 8

def ofLeBytes (w : ℕ) : Bytes → BitVec w
  | [] => 0#w
  | byte :: bytes => ofLeBytes w bytes <<< 8 ||| byte.setWidth w

@[simp] theorem length_leBytes {w : ℕ} (n : ℕ) (v : BitVec w) : (leBytes n v).length = n := by
  simp [leBytes]

theorem testBit_leBytes {w n : ℕ} (v : BitVec w) {pos : ℕ} (h : pos < 8 * n) :
    testBit (leBytes n v) pos = v.getLsbD pos := by
  have hlt : pos / 8 < n := by omega
  have hmod : pos % 8 < 8 := Nat.mod_lt _ (by decide)
  have hsum : 8 * (pos / 8) + pos % 8 = pos := by omega
  rw [testBit_eq, leBytes, List.getElem?_map, List.getElem?_range hlt]
  simp only [Option.map_some, Option.getD_some, BitVec.getLsbD_setWidth,
    BitVec.getLsbD_ushiftRight, hmod, decide_true, Bool.true_and, hsum]

@[simp] theorem getLsbD_ofLeBytes (w : ℕ) (bytes : Bytes) (i : ℕ) :
    (ofLeBytes w bytes).getLsbD i = (decide (i < w) && testBit bytes i) := by
  induction bytes generalizing i with
  | nil =>
      rw [testBit_of_ge (Nat.zero_le i), Bool.and_false]
      exact BitVec.getLsbD_zero
  | cons byte bytes ih =>
      rw [ofLeBytes, BitVec.getLsbD_or, BitVec.getLsbD_shiftLeft, ih, BitVec.getLsbD_setWidth,
        testBit_cons]
      by_cases hi : i < 8
      · simp [hi]
      · have hbyte : byte.getLsbD i = false := BitVec.getLsbD_of_ge _ _ (by omega)
        by_cases hw : i < w
        · simp [hi, hw, hbyte, show i - 8 < w by omega]
        · simp [hi, hw]

theorem ofLeBytes_drop_take (w : ℕ) (bytes : Bytes) (start n : ℕ) :
    ofLeBytes w ((bytes.drop start).take n) = fieldAt w bytes (8 * start) (8 * n) := by
  ext i hi
  rw [← BitVec.getLsbD_eq_getElem, ← BitVec.getLsbD_eq_getElem, getLsbD_ofLeBytes,
    getLsbD_fieldAt]
  by_cases hin : i < 8 * n
  · rw [testBit_take hin, testBit_drop]
    simp only [hin, decide_true, Bool.true_and]
  · have hout : testBit ((bytes.drop start).take n) i = false := by
      apply testBit_of_ge
      have hlen := List.length_take_le n (bytes.drop start)
      omega
    simp only [hin, hout, decide_false, Bool.false_and]

/-- A word read back from its own bytes, whatever follows them. -/
theorem ofLeBytes_take_leBytes {w n : ℕ} (hw : w = 8 * n) (v : BitVec w) (rest : Bytes) :
    ofLeBytes w ((leBytes n v ++ rest).take n) = v := by
  have htake : (leBytes n v ++ rest).take n = leBytes n v := by
    rw [List.take_append_of_le_length (by simp), List.take_of_length_le (by simp)]
  ext i hi
  rw [← BitVec.getLsbD_eq_getElem, ← BitVec.getLsbD_eq_getElem, htake, getLsbD_ofLeBytes,
    testBit_leBytes v (by omega)]
  simp only [hi, decide_true, Bool.true_and]

end DeltaX.Support.PackedBits
