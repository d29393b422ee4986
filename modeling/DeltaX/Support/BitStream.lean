import Mathlib.Data.List.Basic
import Mathlib.Data.BitVec
/-!
# Bit streams

The bits of words and of byte lists, the highest bit first, and the shift and mask
identities that cut such a stream into fields and put fields into it.
-/

namespace DeltaX.Support.BitStream

/-- The low `n` bits of a word, the highest first. -/
def bitsOf {w : ℕ} (n : ℕ) (v : BitVec w) : List Bool :=
  (List.range n).map fun i => v.getLsbD (n - 1 - i)

def streamOf (bytes : List (BitVec 8)) : List Bool := bytes.flatMap (bitsOf 8)

/-- A word cut to its low `n` bits. -/
def lowBits {w : ℕ} (n : ℕ) (v : BitVec w) : BitVec w := (v.setWidth n).setWidth w

@[simp] theorem length_bitsOf {w : ℕ} (n : ℕ) (v : BitVec w) : (bitsOf n v).length = n := by
  simp [bitsOf]

@[simp] theorem bitsOf_zero {w : ℕ} (v : BitVec w) : bitsOf 0 v = [] := rfl

theorem bitsOf_one {w : ℕ} (v : BitVec w) : bitsOf 1 v = [v.getLsbD 0] := by
  simp [bitsOf]

@[simp] theorem streamOf_nil : streamOf [] = [] := rfl

@[simp] theorem streamOf_cons (b : BitVec 8) (bytes : List (BitVec 8)) :
    streamOf (b :: bytes) = bitsOf 8 b ++ streamOf bytes := by
  simp [streamOf]

@[simp] theorem streamOf_append (xs ys : List (BitVec 8)) :
    streamOf (xs ++ ys) = streamOf xs ++ streamOf ys := by
  simp [streamOf]

@[simp] theorem length_streamOf (bytes : List (BitVec 8)) :
    (streamOf bytes).length = 8 * bytes.length := by
  induction bytes with
  | nil => rfl
  | cons b bytes ih =>
      rw [streamOf_cons, List.length_append, length_bitsOf, ih, List.length_cons]
      omega

/-- Words of any two widths that agree on their low `n` bits give the same bits. -/
theorem bitsOf_congr {w u : ℕ} {n : ℕ} {x : BitVec w} {y : BitVec u}
    (h : ∀ i < n, x.getLsbD i = y.getLsbD i) : bitsOf n x = bitsOf n y := by
  apply List.map_congr_left
  intro i hi
  have hlt : i < n := List.mem_range.mp hi
  exact h _ (by omega)

theorem getLsbD_of_bitsOf_eq {w u : ℕ} {n : ℕ} {x : BitVec w} {y : BitVec u}
    (h : bitsOf n x = bitsOf n y) {i : ℕ} (hi : i < n) : x.getLsbD i = y.getLsbD i := by
  have hat := congrArg (fun bits => bits[n - 1 - i]?) h
  have hlt : n - 1 - i < n := by omega
  have hback : n - 1 - (n - 1 - i) = i := by omega
  simpa [bitsOf, hlt, hback] using hat

/-- The first `m` bits of a field of `m + n` are the field shifted down. -/
theorem bitsOf_add {w : ℕ} (m n : ℕ) (v : BitVec w) :
    bitsOf (m + n) v = bitsOf m (v >>> n) ++ bitsOf n v := by
  rw [bitsOf, List.range_add, List.map_append, List.map_map]
  congr 1
  · apply List.map_congr_left
    intro i hi
    have hlt : i < m := List.mem_range.mp hi
    rw [BitVec.getLsbD_ushiftRight]
    congr 1
    omega
  · apply List.map_congr_left
    intro i hi
    have hlt : i < n := List.mem_range.mp hi
    show v.getLsbD (m + n - 1 - (m + i)) = v.getLsbD (n - 1 - i)
    congr 1
    omega

theorem bitsOf_zero_eq_replicate (w n : ℕ) : bitsOf n (0#w) = List.replicate n false := by
  rw [List.eq_replicate_iff]
  constructor
  · exact length_bitsOf n _
  · intro b hb
    obtain ⟨i, -, hi⟩ := List.mem_map.mp hb
    rw [← hi, BitVec.getLsbD_zero]

@[simp] theorem getLsbD_lowBits {w : ℕ} (n : ℕ) (v : BitVec w) (i : ℕ) :
    (lowBits n v).getLsbD i = (decide (i < n) && v.getLsbD i) := by
  rw [lowBits, BitVec.getLsbD_setWidth, BitVec.getLsbD_setWidth]
  by_cases hw : i < w
  · simp [hw]
  · simp [hw, BitVec.getLsbD_of_ge v i (by omega)]

theorem lowBits_of_le {w n : ℕ} (h : w ≤ n) (v : BitVec w) : lowBits n v = v := by
  ext i hi
  rw [← BitVec.getLsbD_eq_getElem, ← BitVec.getLsbD_eq_getElem, getLsbD_lowBits]
  simp [show i < n by omega]

theorem lowBits_eq_of_bitsOf {w n : ℕ} {x y : BitVec w} (h : bitsOf n x = bitsOf n y)
    (hx : ∀ i, n ≤ i → x.getLsbD i = false) : x = lowBits n y := by
  ext i hi
  rw [← BitVec.getLsbD_eq_getElem, ← BitVec.getLsbD_eq_getElem, getLsbD_lowBits]
  by_cases hin : i < n
  · simpa [hin] using getLsbD_of_bitsOf_eq h hin
  · simpa [hin] using hx i (by omega)

theorem lowBits_ofNat {w n v : ℕ} (hn : n ≤ w) (h : v < 2 ^ n) :
    (lowBits n (BitVec.ofNat w v)).toNat = v := by
  have hw : v < 2 ^ w := lt_of_lt_of_le h (Nat.pow_le_pow_right (by decide) hn)
  rw [lowBits, BitVec.toNat_setWidth, BitVec.toNat_setWidth, BitVec.toNat_ofNat,
    Nat.mod_eq_of_lt hw, Nat.mod_eq_of_lt h, Nat.mod_eq_of_lt hw]

/-! ## Left-aligned buffers

The valid bits of a buffer are its top `cnt` ones; everything below is zero. -/

def topBits {w : ℕ} (cnt : ℕ) (v : BitVec w) : List Bool := bitsOf cnt (v >>> (w - cnt))

/-- Below its top `cnt` bits the word is zero. -/
def TopOnly {w : ℕ} (cnt : ℕ) (v : BitVec w) : Prop := ∀ i < w - cnt, v.getLsbD i = false

@[simp] theorem length_topBits {w : ℕ} (cnt : ℕ) (v : BitVec w) :
    (topBits cnt v).length = cnt := length_bitsOf cnt _

@[simp] theorem topBits_zero {w : ℕ} (v : BitVec w) : topBits 0 v = [] := rfl

theorem topBits_width {w : ℕ} (v : BitVec w) : topBits w v = bitsOf w v := by
  simp [topBits]

theorem topOnly_zero {w : ℕ} (cnt : ℕ) : TopOnly cnt (0#w) := by
  intro i _
  exact BitVec.getLsbD_zero

/-- Putting `take` bits of `v` below the valid bits appends them. -/
theorem topBits_or {w u cnt take : ℕ} {acc : BitVec w} (hacc : TopOnly cnt acc)
    (v : BitVec u) (field : BitVec w) (hfit : cnt + take ≤ w)
    (hfield : ∀ i, field.getLsbD i = (decide (i < take) && v.getLsbD i)) :
    topBits (cnt + take) (acc ||| field <<< (w - cnt - take)) =
      topBits cnt acc ++ bitsOf take v := by
  rw [topBits, bitsOf_add]
  congr 1
  · apply bitsOf_congr
    intro i hi
    simp only [BitVec.getLsbD_ushiftRight, BitVec.getLsbD_or, BitVec.getLsbD_shiftLeft, hfield]
    have hat : w - (cnt + take) + (take + i) = w - cnt + i := by omega
    have hout : ¬ w - cnt + i - (w - cnt - take) < take := by omega
    simp [hat, hout]
  · apply bitsOf_congr
    intro i hi
    simp only [BitVec.getLsbD_ushiftRight, BitVec.getLsbD_or, BitVec.getLsbD_shiftLeft, hfield]
    have hzero : acc.getLsbD (w - (cnt + take) + i) = false := hacc _ (by omega)
    have hin : w - (cnt + take) + i < w := by omega
    have hge : ¬ w - (cnt + take) + i < w - cnt - take := by omega
    have hback : w - (cnt + take) + i - (w - cnt - take) = i := by omega
    simp only [hzero, hin, hge, hback, hi, decide_true, decide_false, Bool.not_false,
      Bool.true_and, Bool.false_or]

theorem topOnly_or {w cnt take : ℕ} {acc : BitVec w} (hacc : TopOnly cnt acc)
    (field : BitVec w) : TopOnly (cnt + take) (acc ||| field <<< (w - cnt - take)) := by
  intro i hi
  have hlow : i < w - cnt := by omega
  have hbelow : i < w - cnt - take := by omega
  simp [hacc i hlow, hbelow]

/-- The top bits are the first `n` and, after a shift, the others. -/
theorem topBits_split {w cnt n : ℕ} (acc : BitVec w) (hn : n ≤ cnt) (hcnt : cnt ≤ w) :
    topBits cnt acc = bitsOf n (acc >>> (w - n)) ++ topBits (cnt - n) (acc <<< n) := by
  have hsum : cnt = n + (cnt - n) := by omega
  calc topBits cnt acc = bitsOf (n + (cnt - n)) (acc >>> (w - cnt)) := by
        rw [topBits, ← hsum]
    _ = bitsOf n (acc >>> (w - cnt) >>> (cnt - n)) ++ bitsOf (cnt - n) (acc >>> (w - cnt)) :=
        bitsOf_add _ _ _
    _ = bitsOf n (acc >>> (w - n)) ++ topBits (cnt - n) (acc <<< n) := by
        congr 1
        · apply bitsOf_congr
          intro i hi
          simp only [BitVec.getLsbD_ushiftRight]
          congr 1
          omega
        · apply bitsOf_congr
          intro i hi
          have hin : w - (cnt - n) + i < w := by omega
          have hge : ¬ w - (cnt - n) + i < n := by omega
          have hback : w - (cnt - n) + i - n = w - cnt + i := by omega
          simp only [BitVec.getLsbD_ushiftRight, BitVec.getLsbD_shiftLeft, hin, hge, hback,
            decide_true, decide_false, Bool.not_false, Bool.true_and]

theorem topOnly_shiftLeft {w cnt n : ℕ} {acc : BitVec w} (hacc : TopOnly cnt acc) :
    TopOnly (cnt - n) (acc <<< n) := by
  intro i hi
  rw [BitVec.getLsbD_shiftLeft]
  by_cases hlt : i < n
  · simp [hlt]
  · have hzero : acc.getLsbD (i - n) = false := hacc _ (by omega)
    simp [hzero]

/-- Shifted down to its top `n` bits, a word has no bit above them. -/
theorem getLsbD_ushiftRight_top {w n : ℕ} (acc : BitVec w) (hn : n ≤ w) {i : ℕ} (hi : n ≤ i) :
    (acc >>> (w - n)).getLsbD i = false := by
  rw [BitVec.getLsbD_ushiftRight]
  exact BitVec.getLsbD_of_ge _ _ (by omega)

end DeltaX.Support.BitStream
