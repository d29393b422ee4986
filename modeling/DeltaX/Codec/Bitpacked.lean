import DeltaX.Codec.CompressionType
import DeltaX.Support.ByteSlices
import DeltaX.Support.PackedBits
import Mathlib.Data.List.Forall2
/-!
# Frame-of-reference bit-packing

Values minus their minimum, packed in as few bits as the largest needs, the lowest bit first.
The 32-bit and the 64-bit functions differ in the width and in their byte-aligned fast paths.
An index outside a buffer panics, so the functions are `none` there.
-/

namespace DeltaX.Codec.Bitpacked

open Support.ByteBits Support.ByteSlices Support.PackedBits

variable {w : ℕ}

/-- `64 - range.leading_zeros()`. -/
def bitWidthForRange (range : BitVec 64) : ℕ :=
  if range = 0#64 then 0 else 64 - range.clz.toNat

/-! ## Packing -/

/-- The bits one byte takes from position `bp` on. -/
def chunkSize (remaining bp : ℕ) : ℕ := min remaining (8 - bp % 8)

/-- The low `toWrite` bits of the value, at their place in the byte. -/
def packByte (val : BitVec w) (toWrite bitOffset : ℕ) : Byte :=
  let mask := if toWrite = w then BitVec.allOnes w else 1#w <<< toWrite - 1#w
  (val &&& mask).setWidth 8 <<< bitOffset

/-- `buf[byte_idx] |= byte`. -/
def orByte (buf : List Byte) (byteIdx : ℕ) (byte : Byte) : Option (List Byte) :=
  if byteIdx < buf.length then some (orAt buf byteIdx byte) else none

/-- The inner loop: one value, byte by byte; every round takes a bit at least. -/
def packValue : ℕ → List Byte → BitVec w → ℕ → ℕ → Option (List Byte)
  | 0, buf, _, _, _ => some buf
  | fuel + 1, buf, val, remaining, bp =>
      if remaining = 0 then some buf
      else do
        let toWrite := chunkSize remaining bp
        let buf ← orByte buf (bp / 8) (packByte val toWrite (bp % 8))
        packValue fuel buf (val >>> toWrite) (remaining - toWrite) (bp + toWrite)

def packLoop (bits : ℕ) : List Byte → List (BitVec w) → ℕ → Option (List Byte)
  | buf, [], _ => some buf
  | buf, v :: values, bitPos => do
      let buf ← packValue bits buf v bits bitPos
      packLoop bits buf values (bitPos + bits)

/-- `total_bits.div_ceil(8)`. -/
def packedLen (count bits : ℕ) : ℕ := (count * bits + 7) / 8

def packBits (values : List (BitVec w)) (bits : ℕ) : Option (List Byte) :=
  if bits = 0 ∨ values = [] then some []
  else packLoop bits (List.replicate (packedLen values.length bits) 0#8) values 0

def packBitsU32 (values : List (BitVec 32)) (bits : ℕ) : Option (List Byte) :=
  packBits values bits

def packBitsU64 (values : List (BitVec 64)) (bits : ℕ) : Option (List Byte) :=
  packBits values bits

/-! ## Unpacking -/

/-- `toRead` bits of a byte from `bitOffset` on. -/
def unpackByte (byte : Byte) (toRead bitOffset : ℕ) : Byte :=
  let mask := if toRead = 8 then 0xFF#8 else 1#8 <<< toRead - 1#8
  (byte >>> bitOffset) &&& mask

def unpackValue (w : ℕ) (data : List Byte) : ℕ → BitVec w → ℕ → ℕ → ℕ → Option (BitVec w)
  | 0, val, _, _, _ => some val
  | fuel + 1, val, remaining, bp, shift =>
      if remaining = 0 then some val
      else do
        let byte ← data[bp / 8]?
        let toRead := chunkSize remaining bp
        let bitsVal := unpackByte byte toRead (bp % 8)
        unpackValue w data fuel (val ||| bitsVal.setWidth w <<< shift) (remaining - toRead)
          (bp + toRead) (shift + toRead)

def unpackLoop (w : ℕ) (data : List Byte) (bits : ℕ) : ℕ → ℕ → Option (List (BitVec w))
  | 0, _ => some []
  | count + 1, bitPos => do
      let val ← unpackValue w data bits 0#w bits bitPos 0
      let values ← unpackLoop w data bits count (bitPos + bits)
      return val :: values

/-- `slice.chunks_exact(n)`. -/
def chunksExact (n : ℕ) (slice : List Byte) : List (List Byte) :=
  (List.range (slice.length / n)).map fun j => (slice.drop (j * n)).take n

/-- The fast path for values of whole bytes. -/
def unpackAligned (w : ℕ) (data : List Byte) (count bytes : ℕ) : Option (List (BitVec w)) :=
  if count * bytes ≤ data.length then
    some ((chunksExact bytes (data.take (count * bytes))).map (ofLeBytes w))
  else none

/-- `match bits` over the fast paths, then the general loop. -/
def unpackBits (w : ℕ) (aligned : List ℕ) (data : List Byte) (count bits : ℕ) :
    Option (List (BitVec w)) :=
  if bits = 0 ∨ count = 0 then some (List.replicate count 0#w)
  else if bits ∈ aligned then unpackAligned w data count (bits / 8)
  else unpackLoop w data bits count 0

def alignedU32 : List ℕ := [8, 16, 32]

def alignedU64 : List ℕ := [8, 16, 32, 64]

def unpackBitsU32 (data : List Byte) (count bits : ℕ) : Option (List (BitVec 32)) :=
  unpackBits 32 alignedU32 data count bits

def unpackBitsU64 (data : List Byte) (count bits : ℕ) : Option (List (BitVec 64)) :=
  unpackBits 64 alignedU64 data count bits

/-! ## Constant and frame-of-reference encoding -/

def encodeConstant (value : BitVec w) : List Byte := leBytes (w / 8) value

def decodeConstant (w : ℕ) (data : List Byte) (count : ℕ) : Option (List (BitVec w)) := do
  let value ← slice data 0 (w / 8)
  return List.replicate count (ofLeBytes w value)

/-- `*values.iter().min().unwrap()` of a nonempty list, signed. -/
def minSigned (first : BitVec w) (rest : List (BitVec w)) : BitVec w :=
  rest.foldl (fun m v => if v.slt m then v else m) first

/-- `v as i64 - min as i64`, in twice the width, cut back to an unsigned word. -/
def offsetOf (minVal v : BitVec w) : BitVec w :=
  (v.signExtend (2 * w) - minVal.signExtend (2 * w)).setWidth w

/-- `min as i64 + off as i64`, in twice the width, cut back. -/
def addOffset (minVal off : BitVec w) : BitVec w :=
  (minVal.signExtend (2 * w) + off.setWidth (2 * w)).setWidth w

/-- `offsets.iter().copied().max().unwrap_or(0)`. -/
def maxOffset (offsets : List (BitVec w)) : BitVec w :=
  offsets.foldl (fun m v => if m.ult v then v else m) 0#w

def encodeFor : List (BitVec w) → Option (List Byte)
  | [] => some []
  | first :: rest => do
      let minVal := minSigned first rest
      let offsets := (first :: rest).map (offsetOf minVal)
      let bits := bitWidthForRange ((maxOffset offsets).setWidth 64)
      let packed ← packBits offsets bits
      return leBytes (w / 8) minVal ++ BitVec.ofNat 8 bits :: packed

def decodeFor (w : ℕ) (aligned : List ℕ) (data : List Byte) (count : ℕ) :
    Option (List (BitVec w)) :=
  if count = 0 ∨ data = [] then some []
  else do
    let minVal ← slice data 0 (w / 8)
    let bits ← data[w / 8]?
    let packed := data.drop (w / 8 + 1)
    let offsets ← unpackBits w aligned packed count bits.toNat
    return offsets.map (addOffset (ofLeBytes w minVal))

def encodeConstantI32 (value : BitVec 32) : List Byte := encodeConstant value

def decodeConstantI32 (data : List Byte) (count : ℕ) : Option (List (BitVec 32)) :=
  decodeConstant 32 data count

def encodeConstantI64 (value : BitVec 64) : List Byte := encodeConstant value

def decodeConstantI64 (data : List Byte) (count : ℕ) : Option (List (BitVec 64)) :=
  decodeConstant 64 data count

def encodeForI32 (values : List (BitVec 32)) : Option (List Byte) := encodeFor values

def decodeForI32 (data : List Byte) (count : ℕ) : Option (List (BitVec 32)) :=
  decodeFor 32 alignedU32 data count

def encodeForI64 (values : List (BitVec 64)) : Option (List Byte) := encodeFor values

def decodeForI64 (data : List Byte) (count : ℕ) : Option (List (BitVec 64)) :=
  decodeFor 64 alignedU64 data count

/-! ## One value packed -/

theorem chunkSize_le (remaining bp : ℕ) : chunkSize remaining bp ≤ remaining := Nat.min_le_left _ _

theorem chunkSize_room (remaining bp : ℕ) : bp % 8 + chunkSize remaining bp ≤ 8 := by
  have hmin : chunkSize remaining bp ≤ 8 - bp % 8 := Nat.min_le_right _ _
  omega

theorem chunkSize_pos {remaining : ℕ} (bp : ℕ) (h : remaining ≠ 0) : 0 < chunkSize remaining bp := by
  rw [chunkSize]
  omega

theorem getLsbD_packByte (hw : 8 < w) (val : BitVec w) {toWrite bitOffset : ℕ}
    (hroom : bitOffset + toWrite ≤ 8) {i : ℕ} (hi : i < 8) :
    (packByte val toWrite bitOffset).getLsbD i =
      (decide (bitOffset ≤ i) && decide (i < bitOffset + toWrite) &&
        val.getLsbD (i - bitOffset)) := by
  have hmask : (if toWrite = w then BitVec.allOnes w else 1#w <<< toWrite - 1#w) =
      1#w <<< toWrite - 1#w := if_neg (by omega)
  rw [packByte, hmask, BitVec.getLsbD_shiftLeft, BitVec.getLsbD_setWidth, BitVec.getLsbD_and,
    getLsbD_lowMask (show toWrite < w by omega)]
  by_cases hlow : i < bitOffset
  · simp [hlow, show ¬ bitOffset ≤ i by omega]
  · have hge : bitOffset ≤ i := by omega
    have hback : i - bitOffset < 8 := by omega
    have hlt : i - bitOffset < toWrite ↔ i < bitOffset + toWrite := by omega
    simp only [hi, hlow, hge, hback, hlt, decide_true, decide_false, Bool.not_false,
      Bool.true_and, Bool.and_comm]

/-- The bits a value puts into a buffer at `bp`. -/
def putBit (val : BitVec w) (bp n pos : ℕ) : Bool :=
  decide (bp ≤ pos) && decide (pos < bp + n) && val.getLsbD (pos - bp)

theorem putBit_outside (val : BitVec w) {bp n pos : ℕ} (h : ¬ (bp ≤ pos ∧ pos < bp + n)) :
    putBit val bp n pos = false := by
  rw [putBit, ← Bool.decide_and, decide_eq_false h, Bool.false_and]

theorem putBit_zero (val : BitVec w) (bp pos : ℕ) : putBit val bp 0 pos = false :=
  putBit_outside val (by omega)

/-- A byte's share and the rest of the value make the value. -/
theorem putBit_split (val : BitVec w) {bp n take : ℕ} (htake : take ≤ n) (pos : ℕ) :
    (putBit val bp take pos || putBit (val >>> take) (bp + take) (n - take) pos) =
      putBit val bp n pos := by
  unfold putBit
  rw [BitVec.getLsbD_ushiftRight]
  by_cases hbelow : pos < bp + take
  · have hin : pos < bp + n := by omega
    have hout : ¬ bp + take ≤ pos := by omega
    simp only [hbelow, hin, hout, decide_true, decide_false, Bool.false_and, Bool.or_false]
  · have hge : bp + take ≤ pos := by omega
    have hbp : bp ≤ pos := by omega
    have hback : take + (pos - (bp + take)) = pos - bp := by omega
    have hend : bp + take + (n - take) = bp + n := by omega
    simp only [hbelow, hge, hbp, hback, hend, decide_true, decide_false, Bool.and_false,
      Bool.false_and, Bool.false_or]

theorem orByte_spec {buf : List Byte} {bp : ℕ} (hw : 8 < w) (val : BitVec w) {n : ℕ}
    (hpos : 0 < n) (hfit : bp + n ≤ 8 * buf.length) :
    ∃ buf', orByte buf (bp / 8) (packByte val (chunkSize n bp) (bp % 8)) = some buf' ∧
      buf'.length = buf.length ∧
      ∀ pos, testBit buf' pos = (testBit buf pos || putBit val bp (chunkSize n bp) pos) := by
  have hidx : bp / 8 < buf.length := by omega
  refine ⟨orAt buf (bp / 8) (packByte val (chunkSize n bp) (bp % 8)), if_pos hidx,
    length_orAt _ _ _, ?_⟩
  intro pos
  have hroom := chunkSize_room n bp
  rw [testBit_orAt hidx, getLsbD_packByte hw val hroom (Nat.mod_lt _ (by decide))]
  congr 1
  by_cases hbyte : pos / 8 = bp / 8
  · unfold putBit
    have hle : bp % 8 ≤ pos % 8 ↔ bp ≤ pos := by omega
    have hlt : pos % 8 < bp % 8 + chunkSize n bp ↔ pos < bp + chunkSize n bp := by omega
    have hback : pos % 8 - bp % 8 = pos - bp := by omega
    simp only [hbyte, hle, hlt, hback, decide_true, Bool.true_and]
  · have hout : ¬ (bp ≤ pos ∧ pos < bp + chunkSize n bp) := by omega
    rw [putBit_outside val hout]
    simp only [hbyte, decide_false, Bool.false_and]

/-- Packing a value never leaves a buffer that has room, and ORs its bits in. -/
theorem packValue_spec (hw : 8 < w) (fuel : ℕ) {buf : List Byte} (val : BitVec w) {n bp : ℕ}
    (hfuel : n ≤ fuel) (hfit : bp + n ≤ 8 * buf.length) :
    ∃ buf', packValue fuel buf val n bp = some buf' ∧ buf'.length = buf.length ∧
      ∀ pos, testBit buf' pos = (testBit buf pos || putBit val bp n pos) := by
  induction fuel generalizing buf val n bp with
  | zero =>
      have hzero : n = 0 := by omega
      subst hzero
      exact ⟨buf, rfl, rfl, fun pos => by rw [putBit_zero, Bool.or_false]⟩
  | succ fuel ih =>
      by_cases hzero : n = 0
      · subst hzero
        exact ⟨buf, by rw [packValue, if_pos rfl], rfl, fun pos => by rw [putBit_zero, Bool.or_false]⟩
      · have htake := chunkSize_le n bp
        have hpos := chunkSize_pos bp hzero
        obtain ⟨mid, hor, hmid, hmidBits⟩ := orByte_spec hw val (by omega) hfit
        obtain ⟨buf', hrun, hlen, hbits⟩ := ih (val >>> chunkSize n bp)
          (show n - chunkSize n bp ≤ fuel by omega)
          (show bp + chunkSize n bp + (n - chunkSize n bp) ≤ 8 * mid.length by omega)
        refine ⟨buf', ?_, hlen.trans hmid, ?_⟩
        · rw [packValue, if_neg hzero]
          simp only [bind, Option.bind, hor, hrun]
        · intro pos
          rw [hbits, hmidBits, Bool.or_assoc, putBit_split val htake]

/-! ## Columns packed -/

/-- The bits of a column of `n`-bit values from position `bp` on. -/
def putBits (n : ℕ) : List (BitVec w) → ℕ → ℕ → Bool
  | [], _, _ => false
  | v :: values, bp, pos => putBit v bp n pos || putBits n values (bp + n) pos

theorem putBits_below (n : ℕ) (values : List (BitVec w)) {bp pos : ℕ} (h : pos < bp) :
    putBits n values bp pos = false := by
  induction values generalizing bp with
  | nil => rfl
  | cons v values ih =>
      rw [putBits, putBit_outside v (by omega), ih (by omega), Bool.or_false]

theorem packLoop_spec (hw : 8 < w) (bits : ℕ) (values : List (BitVec w)) {buf : List Byte}
    {bitPos : ℕ} (hfit : bitPos + values.length * bits ≤ 8 * buf.length) :
    ∃ buf', packLoop bits buf values bitPos = some buf' ∧ buf'.length = buf.length ∧
      ∀ pos, testBit buf' pos = (testBit buf pos || putBits bits values bitPos pos) := by
  induction values generalizing buf bitPos with
  | nil => exact ⟨buf, rfl, rfl, fun pos => by rw [putBits, Bool.or_false]⟩
  | cons v values ih =>
      rw [List.length_cons, Nat.add_mul, Nat.one_mul] at hfit
      obtain ⟨mid, hput, hmid, hmidBits⟩ :=
        packValue_spec hw bits v (le_refl bits)
          (show bitPos + bits ≤ 8 * buf.length by omega)
      obtain ⟨buf', hrun, hlen, hbits⟩ :=
        ih (show bitPos + bits + values.length * bits ≤ 8 * mid.length by omega)
      refine ⟨buf', ?_, hlen.trans hmid, ?_⟩
      · simp only [packLoop, bind, Option.bind, hput, hrun]
      · intro pos
        rw [hbits, hmidBits, putBits, Bool.or_assoc]

theorem packedLen_enough (count bits : ℕ) : count * bits ≤ 8 * packedLen count bits := by
  rw [packedLen]
  omega

theorem packBits_spec (hw : 8 < w) (values : List (BitVec w)) {bits : ℕ} (hbits : 0 < bits) :
    ∃ buf, packBits values bits = some buf ∧ buf.length = packedLen values.length bits ∧
      ∀ pos, testBit buf pos = putBits bits values 0 pos := by
  by_cases hempty : values = []
  · subst hempty
    refine ⟨[], ?_, ?_, fun pos => testBit_of_ge (Nat.zero_le pos)⟩
    · rw [packBits, if_pos (Or.inr rfl)]
    · simp [packedLen]
  · have hfit : 0 + values.length * bits ≤
        8 * (List.replicate (packedLen values.length bits) 0#8).length := by
      rw [List.length_replicate, Nat.zero_add]
      exact packedLen_enough _ _
    obtain ⟨buf, hrun, hlen, hput⟩ := packLoop_spec hw bits values hfit
    refine ⟨buf, ?_, hlen.trans (List.length_replicate ..), ?_⟩
    · rw [packBits, if_neg (not_or.mpr ⟨by omega, hempty⟩)]
      exact hrun
    · intro pos
      rw [hput, testBit_replicate_zero, Bool.false_or]

theorem getLsbD_of_lt {v : BitVec w} {n i : ℕ} (hv : v.toNat < 2 ^ n) (hi : n ≤ i) :
    v.getLsbD i = false :=
  Nat.testBit_lt_two_pow (lt_of_lt_of_le hv (Nat.pow_le_pow_right (by decide) hi))

theorem fieldsAt_of_putBits {n : ℕ} (values : List (BitVec w)) {bytes : Bytes} {bp : ℕ}
    (hfits : ∀ v ∈ values, v.toNat < 2 ^ n)
    (hbits : ∀ pos, bp ≤ pos → testBit bytes pos = putBits n values bp pos) :
    fieldsAt w bytes bp n values.length = values := by
  induction values generalizing bp with
  | nil => rfl
  | cons v values ih =>
      rw [List.length_cons, fieldsAt_succ]
      congr 1
      · ext i hi
        rw [← BitVec.getLsbD_eq_getElem, ← BitVec.getLsbD_eq_getElem, getLsbD_fieldAt]
        by_cases hin : i < n
        · have hback : bp + i - bp = i := by omega
          rw [hbits _ (by omega), putBits, putBits_below n values (by omega), putBit, hback]
          simp only [hi, hin, show bp ≤ bp + i by omega, show bp + i < bp + n by omega,
            decide_true, Bool.true_and, Bool.or_false]
        · rw [getLsbD_of_lt (hfits v List.mem_cons_self) (by omega)]
          simp only [hin, decide_false, Bool.false_and, Bool.and_false]
      · apply ih
        · intro u hu
          exact hfits u (List.mem_cons_of_mem v hu)
        · intro pos hpos
          rw [hbits pos (by omega), putBits, putBit_outside v (by omega), Bool.false_or]

/-! ## One value unpacked -/

theorem getLsbD_unpackByte (byte : Byte) {toRead : ℕ} (h : toRead ≤ 8) (bitOffset i : ℕ) :
    (unpackByte byte toRead bitOffset).getLsbD i =
      (decide (i < toRead) && byte.getLsbD (bitOffset + i)) := by
  have hmask : (if toRead = 8 then 0xFF#8 else 1#8 <<< toRead - 1#8).getLsbD i =
      decide (i < toRead) := by
    by_cases hfull : toRead = 8
    · subst hfull
      rw [if_pos rfl, show 0xFF#8 = BitVec.allOnes 8 from rfl, BitVec.getLsbD_allOnes]
    · rw [if_neg hfull]
      exact getLsbD_lowMask (by omega) i
  rw [unpackByte, BitVec.getLsbD_and, BitVec.getLsbD_ushiftRight, hmask, Bool.and_comm]

/-- The bits read into a value at `shift`. -/
def gotBit (data : List Byte) (bp n shift i : ℕ) : Bool :=
  decide (shift ≤ i) && decide (i < shift + n) && testBit data (bp + (i - shift))

theorem gotBit_zero (data : List Byte) (bp shift i : ℕ) : gotBit data bp 0 shift i = false := by
  have hout : ¬ (shift ≤ i ∧ i < shift + 0) := by omega
  rw [gotBit, ← Bool.decide_and, decide_eq_false hout, Bool.false_and]

theorem gotBit_split (data : List Byte) (bp : ℕ) {n take : ℕ} (htake : take ≤ n) (shift i : ℕ) :
    (gotBit data bp take shift i || gotBit data (bp + take) (n - take) (shift + take) i) =
      gotBit data bp n shift i := by
  unfold gotBit
  by_cases hbelow : i < shift + take
  · have hin : i < shift + n := by omega
    have hout : ¬ shift + take ≤ i := by omega
    simp only [hbelow, hin, hout, decide_true, decide_false, Bool.false_and, Bool.or_false]
  · have hge : shift + take ≤ i := by omega
    have hshift : shift ≤ i := by omega
    have hback : bp + take + (i - (shift + take)) = bp + (i - shift) := by omega
    have hend : shift + take + (n - take) = shift + n := by omega
    simp only [hbelow, hge, hshift, hback, hend, decide_true, decide_false, Bool.and_false,
      Bool.false_and, Bool.false_or]

theorem getLsbD_or_unpackByte {data : List Byte} {bp : ℕ} {byte : Byte}
    (hbyte : data[bp / 8]? = some byte) (val : BitVec w) (n shift : ℕ) {i : ℕ} (hi : i < w) :
    (val ||| (unpackByte byte (chunkSize n bp) (bp % 8)).setWidth w <<< shift).getLsbD i =
      (val.getLsbD i || gotBit data bp (chunkSize n bp) shift i) := by
  have hroom := chunkSize_room n bp
  rw [BitVec.getLsbD_or, BitVec.getLsbD_shiftLeft, BitVec.getLsbD_setWidth,
    getLsbD_unpackByte byte (by omega)]
  congr 1
  unfold gotBit
  by_cases hlow : i < shift
  · simp only [hlow, show ¬ shift ≤ i by omega, decide_true, decide_false, Bool.not_true,
      Bool.and_false, Bool.false_and]
  · have hge : shift ≤ i := by omega
    have hback : i - shift < w := by omega
    by_cases hin : i < shift + chunkSize n bp
    · have hread : i - shift < chunkSize n bp := by omega
      have hidx : (bp + (i - shift)) / 8 = bp / 8 := by omega
      have hmod : (bp + (i - shift)) % 8 = bp % 8 + (i - shift) := by omega
      have hbit : testBit data (bp + (i - shift)) = byte.getLsbD ((bp + (i - shift)) % 8) :=
        testBit_getElem (by rw [hidx]; exact hbyte)
      simp only [hi, hlow, hge, hback, hin, hread, hbit, hmod, decide_true, decide_false,
        Bool.not_false, Bool.true_and]
    · have hread : ¬ i - shift < chunkSize n bp := by omega
      simp only [hin, hread, decide_false, Bool.and_false, Bool.false_and]

theorem unpackValue_spec (data : List Byte) (fuel : ℕ) (val : BitVec w) (shift : ℕ) {n bp : ℕ}
    (hfuel : n ≤ fuel) (hfit : bp + n ≤ 8 * data.length) :
    ∃ v, unpackValue w data fuel val n bp shift = some v ∧
      ∀ i < w, v.getLsbD i = (val.getLsbD i || gotBit data bp n shift i) := by
  induction fuel generalizing val shift n bp with
  | zero =>
      have hzero : n = 0 := by omega
      subst hzero
      exact ⟨val, rfl, fun i _ => by rw [gotBit_zero, Bool.or_false]⟩
  | succ fuel ih =>
      by_cases hzero : n = 0
      · subst hzero
        exact ⟨val, by rw [unpackValue, if_pos rfl], fun i _ => by
          rw [gotBit_zero, Bool.or_false]⟩
      · have hidx : bp / 8 < data.length := by omega
        have hbyte := List.getElem?_eq_getElem hidx
        have htake := chunkSize_le n bp
        have hpos := chunkSize_pos bp hzero
        obtain ⟨v, hrun, hbits⟩ := ih
          (val ||| (unpackByte data[bp / 8] (chunkSize n bp) (bp % 8)).setWidth w <<< shift)
          (shift + chunkSize n bp) (show n - chunkSize n bp ≤ fuel by omega)
          (show bp + chunkSize n bp + (n - chunkSize n bp) ≤ 8 * data.length by omega)
        refine ⟨v, ?_, ?_⟩
        · rw [unpackValue, if_neg hzero, hbyte]
          exact hrun
        · intro i hi
          rw [hbits i hi, getLsbD_or_unpackByte hbyte val n shift hi, Bool.or_assoc,
            gotBit_split data bp htake]

/-- Past the end of the data the loop panics. -/
theorem unpackValue_eq_none (data : List Byte) (fuel : ℕ) (val : BitVec w) (shift : ℕ) {n bp : ℕ}
    (hfuel : n ≤ fuel) (hpos : n ≠ 0) (hshort : 8 * data.length < bp + n) :
    unpackValue w data fuel val n bp shift = none := by
  induction fuel generalizing val n bp shift with
  | zero => omega
  | succ fuel ih =>
      rw [unpackValue, if_neg hpos]
      cases hbyte : data[bp / 8]? with
      | none => rfl
      | some byte =>
          have hidx : bp / 8 < data.length := (List.getElem?_eq_some_iff.mp hbyte).1
          have htake := chunkSize_le n bp
          have hroom := chunkSize_room n bp
          have hchunk := chunkSize_pos bp hpos
          exact ih _ _ (by omega) (by omega) (by omega)

/-! ## Columns unpacked -/

theorem unpackLoop_spec (data : List Byte) (bits count bitPos : ℕ)
    (hfit : bitPos + count * bits ≤ 8 * data.length) :
    unpackLoop w data bits count bitPos = some (fieldsAt w data bitPos bits count) := by
  induction count generalizing bitPos with
  | zero => rfl
  | succ count ih =>
      rw [Nat.add_mul, Nat.one_mul] at hfit
      obtain ⟨v, hrun, hbits⟩ := unpackValue_spec data bits 0#w 0
        (le_refl bits) (show bitPos + bits ≤ 8 * data.length by omega)
      have hval : v = fieldAt w data bitPos bits := by
        ext i hi
        rw [← BitVec.getLsbD_eq_getElem, ← BitVec.getLsbD_eq_getElem, hbits i hi,
          getLsbD_fieldAt, gotBit, BitVec.getLsbD_zero]
        simp only [hi, Nat.zero_le, Nat.zero_add, Nat.sub_zero, decide_true, Bool.true_and,
          Bool.false_or]
      have hrest := ih (bitPos + bits) (by omega)
      simp only [unpackLoop, bind, Option.bind, hrun, hrest, hval, fieldsAt_succ]
      rfl

theorem unpackLoop_eq_none (data : List Byte) {bits count : ℕ} (bitPos : ℕ) (hbits : bits ≠ 0)
    (hcount : count ≠ 0) (hshort : 8 * data.length < bitPos + count * bits) :
    unpackLoop w data bits count bitPos = none := by
  induction count generalizing bitPos with
  | zero => exact absurd rfl hcount
  | succ count ih =>
      rw [Nat.add_mul, Nat.one_mul] at hshort
      by_cases hfirst : bitPos + bits ≤ 8 * data.length
      · obtain ⟨v, hrun, -⟩ := unpackValue_spec data bits 0#w 0
          (le_refl bits) hfirst
        have hmore : count ≠ 0 := by
          intro hzero
          rw [hzero, Nat.zero_mul] at hshort
          omega
        have hrest := ih (bitPos + bits) hmore (by omega)
        simp only [unpackLoop, bind, Option.bind, hrun, hrest]
      · have hnone := unpackValue_eq_none data bits 0#w 0
          (le_refl bits) hbits (show 8 * data.length < bitPos + bits by omega)
        simp only [unpackLoop, bind, Option.bind, hnone]

/-- The chunks of `count` aligned values are their fields. -/
theorem map_chunksExact (w : ℕ) (data : List Byte) {count bytes : ℕ} (hbytes : 0 < bytes)
    (hfit : count * bytes ≤ data.length) :
    (chunksExact bytes (data.take (count * bytes))).map (ofLeBytes w) =
      fieldsAt w data 0 (8 * bytes) count := by
  have hlen : (data.take (count * bytes)).length / bytes = count := by
    rw [List.length_take, Nat.min_eq_left hfit, Nat.mul_div_cancel _ hbytes]
  rw [chunksExact, hlen, List.map_map, fieldsAt]
  apply List.map_congr_left
  intro j hj
  have hlt : j < count := List.mem_range.mp hj
  have hend : j * bytes + bytes ≤ count * bytes := by
    calc j * bytes + bytes = (j + 1) * bytes := by rw [Nat.add_mul, Nat.one_mul]
      _ ≤ count * bytes := Nat.mul_le_mul_right bytes hlt
  have hpos : 0 + j * (8 * bytes) = 8 * (j * bytes) := by
    rw [Nat.zero_add, Nat.mul_left_comm]
  show ofLeBytes w (((data.take (count * bytes)).drop (j * bytes)).take bytes) =
    fieldAt w data (0 + j * (8 * bytes)) (8 * bytes)
  rw [List.drop_take, List.take_take, Nat.min_eq_left (by omega), hpos, ofLeBytes_drop_take]

/-- A fast path returns what the bit loop would, and panics where it would. -/
theorem unpackAligned_eq_unpackLoop (w : ℕ) (data : List Byte) {count bytes : ℕ}
    (hbytes : 0 < bytes) (hcount : count ≠ 0) :
    unpackAligned w data count bytes = unpackLoop w data (8 * bytes) count 0 := by
  have hscale : count * (8 * bytes) = 8 * (count * bytes) := Nat.mul_left_comm _ _ _
  by_cases hfit : count * bytes ≤ data.length
  · rw [unpackAligned, if_pos hfit, map_chunksExact w data hbytes hfit,
      unpackLoop_spec data (8 * bytes) count 0 (by rw [hscale]; omega)]
  · rw [unpackAligned, if_neg hfit,
      unpackLoop_eq_none data 0 (by omega) hcount (by rw [hscale]; omega)]

def WholeBytes (aligned : List ℕ) : Prop := ∀ bits ∈ aligned, bits = 8 * (bits / 8)

theorem unpackBits_eq_unpackLoop (w : ℕ) {aligned : List ℕ} (hwhole : WholeBytes aligned)
    (data : List Byte) {count bits : ℕ} (hbits : bits ≠ 0) (hcount : count ≠ 0) :
    unpackBits w aligned data count bits = unpackLoop w data bits count 0 := by
  rw [unpackBits, if_neg (not_or.mpr ⟨hbits, hcount⟩)]
  by_cases haligned : bits ∈ aligned
  · have hsize := hwhole bits haligned
    rw [if_pos haligned, unpackAligned_eq_unpackLoop w data (show 0 < bits / 8 by omega) hcount,
      ← hsize]
  · rw [if_neg haligned]

theorem unpackBits_packBits (hw : 8 < w) {aligned : List ℕ} (hwhole : WholeBytes aligned)
    (values : List (BitVec w)) {bits : ℕ} (hbits : 0 < bits)
    (hfits : ∀ v ∈ values, v.toNat < 2 ^ bits) :
    ∃ buf, packBits values bits = some buf ∧ buf.length = packedLen values.length bits ∧
      unpackBits w aligned buf values.length bits = some values := by
  obtain ⟨buf, hpack, hlen, hput⟩ := packBits_spec hw values hbits
  refine ⟨buf, hpack, hlen, ?_⟩
  by_cases hempty : values.length = 0
  · rw [unpackBits, if_pos (Or.inr hempty), hempty, List.length_eq_zero_iff.mp hempty]
    rfl
  · have hroom := packedLen_enough values.length bits
    rw [unpackBits_eq_unpackLoop w hwhole buf (by omega) hempty,
      unpackLoop_spec buf bits values.length 0 (by rw [hlen]; omega),
      fieldsAt_of_putBits values hfits fun pos _ => hput pos]

theorem wholeBytes_alignedU32 : WholeBytes alignedU32 := by
  unfold WholeBytes
  decide

theorem wholeBytes_alignedU64 : WholeBytes alignedU64 := by
  unfold WholeBytes
  decide

/-! ## Frame of reference -/

theorem setWidth_signExtend (v : BitVec w) : (v.signExtend (2 * w)).setWidth w = v := by
  ext i hi
  rw [← BitVec.getLsbD_eq_getElem, ← BitVec.getLsbD_eq_getElem, BitVec.getLsbD_setWidth,
    BitVec.getLsbD_signExtend]
  simp only [hi, show i < 2 * w by omega, decide_true, Bool.true_and, if_true]

/-- In twice the width nothing overflows; cut back, an offset is the wrapped difference. -/
theorem offsetOf_eq (minVal v : BitVec w) : offsetOf minVal v = v - minVal := by
  rw [offsetOf, BitVec.sub_eq_add_neg, BitVec.setWidth_add _ _ (by omega),
    BitVec.setWidth_neg_of_le (by omega), setWidth_signExtend, setWidth_signExtend,
    ← BitVec.sub_eq_add_neg]

theorem addOffset_offsetOf (minVal v : BitVec w) : addOffset minVal (offsetOf minVal v) = v := by
  have hcut : ((v - minVal).setWidth (2 * w)).setWidth w = v - minVal := by
    ext i hi
    simp only [← BitVec.getLsbD_eq_getElem, BitVec.getLsbD_setWidth, hi,
      show i < 2 * w by omega, decide_true, Bool.true_and]
  rw [addOffset, offsetOf_eq, BitVec.setWidth_add _ _ (by omega), setWidth_signExtend, hcut,
    BitVec.add_comm, BitVec.sub_add_cancel]

theorem le_foldl_max (offsets : List (BitVec w)) (init : BitVec w) :
    init.toNat ≤ (offsets.foldl (fun m v => if m.ult v then v else m) init).toNat ∧
      ∀ v ∈ offsets,
        v.toNat ≤ (offsets.foldl (fun m v => if m.ult v then v else m) init).toNat := by
  induction offsets generalizing init with
  | nil => simp
  | cons u offsets ih =>
      obtain ⟨hinit, hall⟩ := ih (if init.ult u then u else init)
      have hstep : init.toNat ≤ (if init.ult u then u else init).toNat ∧
          u.toNat ≤ (if init.ult u then u else init).toNat := by
        by_cases hlt : init.toNat < u.toNat
        · have hult : init.ult u = true := by simpa [BitVec.ult] using hlt
          rw [if_pos hult]
          omega
        · have hult : ¬ init.ult u = true := by simpa [BitVec.ult] using hlt
          rw [if_neg hult]
          omega
      rw [List.foldl_cons]
      refine ⟨hstep.1.trans hinit, ?_⟩
      intro v hv
      cases List.mem_cons.mp hv with
      | inl hfirst => exact hfirst ▸ hstep.2.trans hinit
      | inr hlater => exact hall v hlater

theorem le_maxOffset {offsets : List (BitVec w)} {v : BitVec w} (hv : v ∈ offsets) :
    v.toNat ≤ (maxOffset offsets).toNat :=
  (le_foldl_max offsets 0#w).2 v hv

theorem bitWidthForRange_spec (range : BitVec 64) (hrange : range.toNat < 2 ^ w) :
    range.toNat < 2 ^ bitWidthForRange range ∧ bitWidthForRange range ≤ w := by
  by_cases hzero : range = 0#64
  · rw [bitWidthForRange, if_pos hzero, hzero]
    exact ⟨by decide, Nat.zero_le w⟩
  · rw [bitWidthForRange, if_neg hzero]
    refine ⟨BitVec.toNat_lt_two_pow_sub_clz, ?_⟩
    have hge := BitVec.two_pow_sub_clz_le_toNat_of_ne_zero (by decide) hzero
    have hlt : 2 ^ (64 - 1 - range.clz.toNat) < 2 ^ w := lt_of_le_of_lt hge hrange
    have hexp := (Nat.pow_lt_pow_iff_right (show 1 < 2 by decide)).mp hlt
    omega

/-- A frame-of-reference blob decodes to its values, at any width of whole bytes. -/
theorem decodeFor_encodeFor (hw : 8 < w) (h64 : w ≤ 64) (hbytes : w = 8 * (w / 8))
    {aligned : List ℕ} (hwhole : WholeBytes aligned) (values : List (BitVec w)) :
    ∃ data, encodeFor values = some data ∧
      decodeFor w aligned data values.length = some values := by
  cases values with
  | nil => exact ⟨[], rfl, if_pos (Or.inl rfl)⟩
  | cons first rest =>
      have hcut : ∀ v : BitVec w, (v.setWidth 64).toNat = v.toNat := by
        intro v
        have hlt : v.toNat < 2 ^ 64 :=
          lt_of_lt_of_le v.isLt (Nat.pow_le_pow_right (by decide) h64)
        rw [BitVec.toNat_setWidth, Nat.mod_eq_of_lt hlt]
      generalize hmin : minSigned first rest = minVal
      generalize hoffsets : (first :: rest).map (offsetOf minVal) = offsets
      have hcount : offsets.length = (first :: rest).length := by
        rw [← hoffsets, List.length_map]
      obtain ⟨hfit, hle⟩ := bitWidthForRange_spec ((maxOffset offsets).setWidth 64)
        (by rw [hcut]; exact (maxOffset offsets).isLt)
      rw [hcut] at hfit
      generalize hbits : bitWidthForRange ((maxOffset offsets).setWidth 64) = bits at hfit hle
      have hfits : ∀ v ∈ offsets, v.toNat < 2 ^ bits := fun v hv =>
        lt_of_le_of_lt (le_maxOffset hv) hfit
      have hback : ∃ packed, packBits offsets bits = some packed ∧
          unpackBits w aligned packed (first :: rest).length bits = some offsets := by
        by_cases hzero : bits = 0
        · refine ⟨[], if_pos (Or.inl hzero), ?_⟩
          rw [unpackBits, if_pos (Or.inl hzero), ← hcount]
          congr 1
          rw [eq_comm, List.eq_replicate_iff]
          refine ⟨rfl, fun v hv => ?_⟩
          have hlt := hfits v hv
          rw [hzero, pow_zero] at hlt
          exact BitVec.eq_of_toNat_eq (by rw [BitVec.toNat_zero]; omega)
        · obtain ⟨packed, hpack, -, hunpack⟩ :=
            unpackBits_packBits hw hwhole offsets (by omega) hfits
          exact ⟨packed, hpack, hcount ▸ hunpack⟩
      obtain ⟨packed, hpack, hunpack⟩ := hback
      refine ⟨leBytes (w / 8) minVal ++ BitVec.ofNat 8 bits :: packed, ?_, ?_⟩
      · simp only [encodeFor, hmin, hoffsets, hbits, hpack, bind, Option.bind]
        rfl
      · have hne : ¬ ((first :: rest).length = 0 ∨
            leBytes (w / 8) minVal ++ BitVec.ofNat 8 bits :: packed = []) := by
          simp
        have hprefix : slice (leBytes (w / 8) minVal ++ BitVec.ofNat 8 bits :: packed) 0
            (w / 8) = some ((leBytes (w / 8) minVal ++ BitVec.ofNat 8 bits :: packed).take
              (w / 8)) := by
          apply slice_zero
          simp
        have hwidth : (leBytes (w / 8) minVal ++ BitVec.ofNat 8 bits :: packed)[w / 8]? =
            some (BitVec.ofNat 8 bits) := by
          rw [List.getElem?_append_right (by simp)]
          simp
        have hdrop : (leBytes (w / 8) minVal ++ BitVec.ofNat 8 bits :: packed).drop
            (w / 8 + 1) = packed := by
          rw [List.drop_append, List.drop_of_length_le (by simp)]
          simp
        have hsmall : (BitVec.ofNat 8 bits).toNat = bits := by
          rw [BitVec.toNat_ofNat]
          exact Nat.mod_eq_of_lt (by omega)
        rw [decodeFor, if_neg hne, hprefix, hwidth, hdrop]
        simp only [bind, Option.bind, hsmall, hunpack, ofLeBytes_take_leBytes hbytes]
        rw [← hoffsets, List.map_map]
        show some _ = some _
        congr 1
        calc (first :: rest).map (addOffset minVal ∘ offsetOf minVal)
            = (first :: rest).map id := List.map_congr_left fun v _ =>
              addOffset_offsetOf minVal v
          _ = first :: rest := List.map_id _

/-! ## The two widths -/

/-- Packing writes inside its buffer at every width, also the empty one. -/
theorem isSome_packBits (hw : 8 < w) (values : List (BitVec w)) (bits : ℕ) :
    (packBits values bits).isSome := by
  by_cases hbits : bits = 0
  · rw [packBits, if_pos (Or.inl hbits)]
    rfl
  · obtain ⟨buf, hpack, -⟩ := packBits_spec hw values (show 0 < bits by omega)
    rw [hpack]
    rfl

/-- On a fast path's width the whole function is the bit loop. -/
theorem unpackBits_aligned (w : ℕ) {aligned : List ℕ} (hwhole : WholeBytes aligned)
    (hpos : 0 ∉ aligned) (data : List Byte) (count : ℕ) {bits : ℕ} (hbits : bits ∈ aligned) :
    unpackBits w aligned data count bits = unpackLoop w data bits count 0 := by
  have hne : bits ≠ 0 := fun hzero => hpos (hzero ▸ hbits)
  by_cases hcount : count = 0
  · rw [hcount, unpackBits, if_pos (Or.inr rfl)]
    rfl
  · exact unpackBits_eq_unpackLoop w hwhole data hne hcount

structure Faithful (w : ℕ) (aligned : List ℕ) : Prop where
  frameOfReference : ∀ values : List (BitVec w), ∃ data, encodeFor values = some data ∧
    decodeFor w aligned data values.length = some values
  roundTrip : ∀ bits, 0 < bits → bits ≤ w → ∀ values : List (BitVec w),
    (∀ v ∈ values, v.toNat < 2 ^ bits) →
    ∃ buf, packBits values bits = some buf ∧
      unpackBits w aligned buf values.length bits = some values
  fastPaths : ∀ data count bits, bits ∈ aligned →
    unpackBits w aligned data count bits = unpackLoop w data bits count 0
  inBounds : ∀ (values : List (BitVec w)) (bits : ℕ), (packBits values bits).isSome

theorem faithful (hw : 8 < w) (h64 : w ≤ 64) (hbytes : w = 8 * (w / 8)) {aligned : List ℕ}
    (hwhole : WholeBytes aligned) (hpos : 0 ∉ aligned) : Faithful w aligned where
  frameOfReference := decodeFor_encodeFor hw h64 hbytes hwhole
  roundTrip := by
    intro bits hbits _ values hfits
    obtain ⟨buf, hpack, -, hunpack⟩ := unpackBits_packBits hw hwhole values hbits hfits
    exact ⟨buf, hpack, hunpack⟩
  fastPaths := fun data count _ hbits => unpackBits_aligned w hwhole hpos data count hbits
  inBounds := isSome_packBits hw

/-- Bit-packing is lossless at both widths and its fast paths are the bit loop. -/
theorem bitpacking_faithful : Faithful 32 alignedU32 ∧ Faithful 64 alignedU64 :=
  ⟨faithful (by decide) (by decide) (by decide) wholeBytes_alignedU32 (by decide),
    faithful (by decide) (by decide) (by decide) wholeBytes_alignedU64 (by decide)⟩

/-- The widest range there is, and a straddling width. -/
example : encodeForI64 [BitVec.intMin 64, BitVec.intMax 64] = some
    ([0, 0, 0, 0, 0, 0, 0, 0x80] ++ [64] ++ [0, 0, 0, 0, 0, 0, 0, 0] ++
      [0xFF, 0xFF, 0xFF, 0xFF, 0xFF, 0xFF, 0xFF, 0xFF]) := by decide

example : unpackBitsU32 [0x31, 0x1A] 3 5 = some [0x11, 0x11, 0x06] := by decide

end DeltaX.Codec.Bitpacked
