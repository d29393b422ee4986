import DeltaX.Codec.CompressionType
import DeltaX.Support.BitStream
import Mathlib.Tactic.Ring
/-!
# Bit-level reading and writing

The bit writer and the bit reader of the Gorilla codecs.  The writer fills one byte at a
time from its high end; the reader keeps a left-aligned 64-bit buffer that it refills byte by
byte.  The reader's subtractions and shifts are checked: they are `none` out of range.
-/

namespace DeltaX.Codec.BitIo

open Support.BitStream

/-- A subtraction that must not go below zero. -/
def checkedSub (a b : ℕ) : Option ℕ := if b ≤ a then some (a - b) else none

/-- A left shift by less than the width. -/
def checkedShl {w : ℕ} (v : BitVec w) (n : ℕ) : Option (BitVec w) :=
  if n < w then some (v <<< n) else none

/-- A right shift by less than the width. -/
def checkedShr {w : ℕ} (v : BitVec w) (n : ℕ) : Option (BitVec w) :=
  if n < w then some (v >>> n) else none

theorem checkedSub_of_le {a b : ℕ} (h : b ≤ a) : checkedSub a b = some (a - b) := if_pos h

theorem checkedShl_of_lt {w n : ℕ} (v : BitVec w) (h : n < w) :
    checkedShl v n = some (v <<< n) := if_pos h

theorem checkedShr_of_lt {w n : ℕ} (v : BitVec w) (h : n < w) :
    checkedShr v n = some (v >>> n) := if_pos h

/-! ## The writer -/

structure BitWriter where
  bytes : List Byte
  current : Byte
  bitsUsed : ℕ
deriving DecidableEq, Repr

namespace BitWriter

def new : BitWriter := { bytes := [], current := 0#8, bitsUsed := 0 }

/-- Push the current byte once it is full. -/
def flushFull (self : BitWriter) : BitWriter :=
  if self.bitsUsed = 8 then
    { bytes := self.bytes ++ [self.current], current := 0#8, bitsUsed := 0 }
  else self

def writeBit (self : BitWriter) (bit : Bool) : BitWriter :=
  flushFull
    { self with
      current := if bit then self.current ||| 1#8 <<< (7 - self.bitsUsed) else self.current
      bitsUsed := self.bitsUsed + 1 }

/-- One round of `write_bits`: as many of the `remaining` bits as the current byte takes. -/
def writeChunk (self : BitWriter) (value : BitVec 64) (remaining : ℕ) : BitWriter :=
  let avail := 8 - self.bitsUsed
  let take := min remaining avail
  let shift := remaining - take
  let mask : Byte := (1#64 <<< take - 1#64).setWidth 8
  let bits : Byte := ((value >>> shift) &&& mask.setWidth 64).setWidth 8
  flushFull
    { self with
      current := self.current ||| bits <<< (avail - take)
      bitsUsed := self.bitsUsed + take }

/-- The loop of `write_bits`; every round takes a bit at least. -/
def writeLoop : ℕ → BitWriter → BitVec 64 → ℕ → BitWriter
  | 0, self, _, _ => self
  | fuel + 1, self, value, remaining =>
      if remaining = 0 then self
      else
        let take := min remaining (8 - self.bitsUsed)
        writeLoop fuel (self.writeChunk value remaining) value (remaining - take)

def writeBits (self : BitWriter) (value : BitVec 64) (numBits : ℕ) : BitWriter :=
  if numBits = 0 then self else writeLoop numBits self value numBits

def finish (self : BitWriter) : List Byte :=
  if 0 < self.bitsUsed then self.bytes ++ [self.current] else self.bytes

def bits (self : BitWriter) : List Bool :=
  streamOf self.bytes ++ topBits self.bitsUsed self.current

/-- Between two calls the current byte has room, and its unused bits are zero. -/
def Valid (self : BitWriter) : Prop := self.bitsUsed < 8 ∧ TopOnly self.bitsUsed self.current

theorem valid_new : new.Valid := ⟨by decide, topOnly_zero 0⟩

@[simp] theorem bits_new : new.bits = [] := rfl

theorem bits_flushFull (self : BitWriter) : self.flushFull.bits = self.bits := by
  unfold flushFull
  by_cases h : self.bitsUsed = 8
  · rw [if_pos h, bits, bits, h]
    show streamOf (self.bytes ++ [self.current]) ++ topBits 0 0#8 = _
    rw [streamOf_append, streamOf_cons, streamOf_nil, topBits_zero, topBits_width,
      List.append_nil, List.append_nil]
  · rw [if_neg h]

theorem valid_flushFull {self : BitWriter} (hused : self.bitsUsed ≤ 8)
    (htop : TopOnly self.bitsUsed self.current) : self.flushFull.Valid := by
  unfold flushFull
  by_cases h : self.bitsUsed = 8
  · rw [if_pos h]
    exact ⟨Nat.zero_lt_succ 7, topOnly_zero 0⟩
  · rw [if_neg h]
    exact ⟨by omega, htop⟩

/-! ### What the mask keeps -/

theorem toNat_mask {take : ℕ} (h : take ≤ 8) :
    ((1#64 <<< take - 1#64).setWidth 8).toNat = 2 ^ take - 1 := by
  match take, h with
  | 0, _ | 1, _ | 2, _ | 3, _ | 4, _ | 5, _ | 6, _ | 7, _ | 8, _ => rfl

theorem getLsbD_mask {take : ℕ} (h : take ≤ 8) (i : ℕ) :
    ((1#64 <<< take - 1#64).setWidth 8).getLsbD i = decide (i < take) := by
  rw [BitVec.getLsbD, toNat_mask h, Nat.testBit_two_pow_sub_one]

theorem getLsbD_chunkBits {take : ℕ} (h : take ≤ 8) (v : BitVec 64) (i : ℕ) :
    ((v &&& (((1#64 <<< take - 1#64).setWidth 8).setWidth 64)).setWidth 8).getLsbD i =
      (decide (i < take) && v.getLsbD i) := by
  rw [BitVec.getLsbD_setWidth, BitVec.getLsbD_and, BitVec.getLsbD_setWidth, getLsbD_mask h]
  by_cases hi : i < take
  · have h8 : i < 8 := by omega
    have h64 : i < 64 := by omega
    simp only [hi, h8, h64, decide_true, Bool.true_and, Bool.and_true]
  · simp only [hi, decide_false, Bool.and_false, Bool.false_and]

/-- A round appends the top bits of the field. -/
theorem writeChunk_spec {self : BitWriter} (hvalid : self.Valid) (value : BitVec 64)
    (remaining : ℕ) :
    (self.writeChunk value remaining).Valid ∧
      (self.writeChunk value remaining).bits =
        self.bits ++ bitsOf (min remaining (8 - self.bitsUsed))
          (value >>> (remaining - min remaining (8 - self.bitsUsed))) := by
  obtain ⟨hused, htop⟩ := hvalid
  have htake : min remaining (8 - self.bitsUsed) ≤ 8 - self.bitsUsed := Nat.min_le_right _ _
  revert htake
  simp only [writeChunk]
  generalize min remaining (8 - self.bitsUsed) = take
  intro htake
  constructor
  · apply valid_flushFull
    · show self.bitsUsed + take ≤ 8
      omega
    · exact topOnly_or htop _
  · rw [bits_flushFull, bits, bits, List.append_assoc]
    congr 1
    apply topBits_or htop
    · omega
    · exact getLsbD_chunkBits (by omega) _

theorem writeLoop_spec (value : BitVec 64) (fuel : ℕ) {self : BitWriter} (remaining : ℕ)
    (hvalid : self.Valid) (hfuel : remaining ≤ fuel) :
    (writeLoop fuel self value remaining).Valid ∧
      (writeLoop fuel self value remaining).bits = self.bits ++ bitsOf remaining value := by
  induction fuel generalizing self remaining with
  | zero =>
      have hzero : remaining = 0 := by omega
      subst hzero
      rw [bitsOf_zero, List.append_nil]
      exact ⟨hvalid, rfl⟩
  | succ fuel ih =>
      by_cases hzero : remaining = 0
      · subst hzero
        rw [writeLoop, if_pos rfl, bitsOf_zero, List.append_nil]
        exact ⟨hvalid, rfl⟩
      · have hused : self.bitsUsed < 8 := hvalid.1
        have hchunk := writeChunk_spec hvalid value remaining
        have hrest := ih (remaining - min remaining (8 - self.bitsUsed)) hchunk.1 (by omega)
        rw [writeLoop, if_neg hzero]
        refine ⟨hrest.1, ?_⟩
        have hsum : remaining = min remaining (8 - self.bitsUsed) +
            (remaining - min remaining (8 - self.bitsUsed)) := by omega
        rw [hrest.2, hchunk.2, List.append_assoc, ← bitsOf_add, ← hsum]

/-- `write_bits` appends the low `num_bits` of its value. -/
theorem writeBits_spec {self : BitWriter} (hvalid : self.Valid) (value : BitVec 64)
    (numBits : ℕ) :
    (self.writeBits value numBits).Valid ∧
      (self.writeBits value numBits).bits = self.bits ++ bitsOf numBits value := by
  unfold writeBits
  by_cases h : numBits = 0
  · subst h
    rw [if_pos rfl, bitsOf_zero, List.append_nil]
    exact ⟨hvalid, rfl⟩
  · rw [if_neg h]
    exact writeLoop_spec value numBits numBits hvalid (le_refl numBits)

theorem writeBit_spec {self : BitWriter} (hvalid : self.Valid) (bit : Bool) :
    (self.writeBit bit).Valid ∧ (self.writeBit bit).bits = self.bits ++ [bit] := by
  obtain ⟨hused, htop⟩ := hvalid
  have hfield : (if bit then self.current ||| 1#8 <<< (7 - self.bitsUsed) else self.current) =
      self.current ||| (BitVec.ofBool bit).setWidth 8 <<< (8 - self.bitsUsed - 1) := by
    have hshift : 8 - self.bitsUsed - 1 = 7 - self.bitsUsed := by omega
    rw [hshift]
    cases bit with
    | false => simp
    | true => simp
  unfold writeBit
  rw [hfield]
  constructor
  · apply valid_flushFull
    · show self.bitsUsed + 1 ≤ 8
      omega
    · exact topOnly_or htop _
  · rw [bits_flushFull, bits, bits, List.append_assoc]
    congr 1
    have hone : bitsOf 1 (BitVec.ofBool bit) = [bit] := by
      rw [bitsOf_one]
      cases bit <;> rfl
    rw [← hone]
    apply topBits_or htop _ _ (by omega)
    intro i
    rw [BitVec.getLsbD_setWidth]
    by_cases hi : i < 1
    · simp [hi, show i < 8 by omega]
    · simp [hi, BitVec.getLsbD_of_ge (BitVec.ofBool bit) i (by omega)]

/-- The finished bytes hold what was written, padded to whole bytes. -/
theorem streamOf_finish {self : BitWriter} (hvalid : self.Valid) :
    ∃ pad, streamOf self.finish = self.bits ++ pad := by
  unfold finish
  by_cases h : 0 < self.bitsUsed
  · refine ⟨topBits (8 - self.bitsUsed) (self.current <<< self.bitsUsed), ?_⟩
    have hsplit := topBits_split self.current hvalid.1.le (le_refl 8)
    rw [if_pos h, streamOf_append, streamOf_cons, streamOf_nil, List.append_nil,
      ← topBits_width, hsplit, bits, List.append_assoc]
    rfl
  · have hzero : self.bitsUsed = 0 := by omega
    refine ⟨[], ?_⟩
    rw [if_neg h, bits, hzero, topBits_zero]
    simp only [List.append_nil]

end BitWriter

/-! ## The reader -/

structure BitReader where
  bytes : List Byte
  pos : ℕ
  acc : BitVec 64
  cnt : ℕ
deriving DecidableEq, Repr

namespace BitReader

/-- One round of `refill`: the next byte goes below the valid bits. -/
def loadByte (self : BitReader) (byte : Byte) : Option BitReader := do
  let shift ← checkedSub 56 self.cnt
  let field ← checkedShl (byte.setWidth 64) shift
  return { self with acc := self.acc ||| field, pos := self.pos + 1, cnt := self.cnt + 8 }

/-- The loop of `refill`: a byte at a time while one fits. -/
def refillLoop : ℕ → BitReader → Option BitReader
  | 0, self => some self
  | fuel + 1, self =>
      if self.cnt ≤ 56 then
        match self.bytes[self.pos]? with
        | none => some self
        | some byte => (self.loadByte byte).bind (refillLoop fuel)
      else some self

/-- Eight bytes fill the buffer, whatever it held. -/
def refill (self : BitReader) : Option BitReader := refillLoop 8 self

def new (bytes : List Byte) : Option BitReader :=
  refill { bytes := bytes, pos := 0, acc := 0#64, cnt := 0 }

def takeBit (self : BitReader) : Option (Bool × BitReader) := do
  let cnt ← checkedSub self.cnt 1
  return ((self.acc >>> 63) &&& 1#64 == 1#64, { self with acc := self.acc <<< 1, cnt := cnt })

def readBit (self : BitReader) : Option (Bool × BitReader) :=
  if self.cnt = 0 then do
    let self ← self.refill
    if self.cnt = 0 then return (false, self) else self.takeBit
  else self.takeBit

/-- Take the top `n` bits of a buffer that has them. -/
def takeBits (self : BitReader) (n : ℕ) : Option (BitVec 64 × BitReader) := do
  let shift ← checkedSub 64 n
  let val ← checkedShr self.acc shift
  let acc ← checkedShl self.acc n
  let cnt ← checkedSub self.cnt n
  return (val, { self with acc := acc, cnt := cnt })

/-- Truncated input: whatever high bits remain. -/
def takeRest (self : BitReader) : Option (BitVec 64 × BitReader) := do
  let shift ← checkedSub 64 self.cnt
  let val ← if self.cnt = 0 then some 0#64 else checkedShr self.acc shift
  return (val, { self with acc := 0#64, cnt := 0 })

/-- `read_bits` for the widths a single buffer serves. -/
def readShort (self : BitReader) (n : ℕ) : Option (BitVec 64 × BitReader) :=
  if n = 0 then some (0#64, self)
  else if self.cnt < n then do
    let self ← self.refill
    if self.cnt < n then self.takeRest else self.takeBits n
  else self.takeBits n

/-- A wide read is two short ones; no caller asks for more than 64 bits. -/
def readBits (self : BitReader) (numBits : ℕ) : Option (BitVec 64 × BitReader) :=
  if 57 < numBits then do
    let loBits ← checkedSub numBits 32
    let (hi, self) ← self.readShort 32
    let (lo, self) ← self.readShort loBits
    let hi ← checkedShl hi loBits
    return (hi ||| lo, self)
  else self.readShort numBits

def remaining (self : BitReader) : List Bool :=
  topBits self.cnt self.acc ++ streamOf (self.bytes.drop self.pos)

/-- The buffer holds `cnt` bits, and nothing below them. -/
def Valid (self : BitReader) : Prop := self.cnt ≤ 64 ∧ TopOnly self.cnt self.acc

theorem getLsbD_setWidth_byte (byte : Byte) (i : ℕ) :
    (byte.setWidth 64).getLsbD i = (decide (i < 8) && byte.getLsbD i) := by
  rw [BitVec.getLsbD_setWidth]
  by_cases hi : i < 8
  · simp only [hi, show i < 64 by omega, decide_true]
  · simp only [hi, BitVec.getLsbD_of_ge byte i (by omega), Bool.and_false]

theorem loadByte_spec {self : BitReader} (hvalid : self.Valid) (hcnt : self.cnt ≤ 56)
    {byte : Byte} (hbyte : self.bytes[self.pos]? = some byte) :
    ∃ r, self.loadByte byte = some r ∧ r.Valid ∧ r.remaining = self.remaining ∧
      r.cnt = self.cnt + 8 := by
  obtain ⟨hpos, hget⟩ := List.getElem?_eq_some_iff.mp hbyte
  have hshift : 56 - self.cnt = 64 - self.cnt - 8 := by omega
  refine ⟨{ self with
    acc := self.acc ||| byte.setWidth 64 <<< (64 - self.cnt - 8)
    pos := self.pos + 1
    cnt := self.cnt + 8 }, ?_, ⟨?_, topOnly_or hvalid.2 _⟩, ?_, rfl⟩
  · rw [loadByte, checkedSub_of_le hcnt, hshift]
    show (do
      let field ← checkedShl (byte.setWidth 64) (64 - self.cnt - 8)
      some _) = _
    rw [checkedShl_of_lt _ (by omega)]
    rfl
  · show self.cnt + 8 ≤ 64
    omega
  · rw [remaining, remaining, List.drop_eq_getElem_cons hpos, hget, streamOf_cons,
      ← List.append_assoc]
    congr 1
    apply topBits_or hvalid.2
    · omega
    · exact getLsbD_setWidth_byte byte

theorem refillLoop_spec (fuel : ℕ) {self : BitReader} (hvalid : self.Valid)
    (hfuel : 56 < self.cnt + 8 * fuel) :
    ∃ r, refillLoop fuel self = some r ∧ r.Valid ∧ r.remaining = self.remaining ∧
      (56 < r.cnt ∨ r.remaining.length = r.cnt) := by
  induction fuel generalizing self with
  | zero => exact ⟨self, rfl, hvalid, rfl, Or.inl (by omega)⟩
  | succ fuel ih =>
      by_cases hcnt : self.cnt ≤ 56
      · cases hbyte : self.bytes[self.pos]? with
        | none =>
            have hend : self.bytes.drop self.pos = [] :=
              List.drop_eq_nil_of_le (List.getElem?_eq_none_iff.mp hbyte)
            refine ⟨self, ?_, hvalid, rfl, Or.inr ?_⟩
            · simp only [refillLoop, if_pos hcnt, hbyte]
            · simp only [remaining, hend, streamOf_nil, List.append_nil, length_topBits]
        | some byte =>
            obtain ⟨next, hload, hnext, hsame, hmore⟩ := loadByte_spec hvalid hcnt hbyte
            obtain ⟨r, hrun, hr, hremaining, hfull⟩ := ih hnext (by omega)
            refine ⟨r, ?_, hr, hremaining.trans hsame, hfull⟩
            simp only [refillLoop, if_pos hcnt, hbyte, hload, Option.bind_some, hrun]
      · refine ⟨self, ?_, hvalid, rfl, Or.inl (by omega)⟩
        rw [refillLoop, if_neg hcnt]

/-- `refill` loses nothing, and stops with a full buffer or at the end of the input. -/
theorem refill_spec {self : BitReader} (hvalid : self.Valid) :
    ∃ r, self.refill = some r ∧ r.Valid ∧ r.remaining = self.remaining ∧
      (56 < r.cnt ∨ r.remaining.length = r.cnt) :=
  refillLoop_spec 8 hvalid (by omega)

theorem new_spec (bytes : List Byte) :
    ∃ r, new bytes = some r ∧ r.Valid ∧ r.remaining = streamOf bytes := by
  have hempty : Valid { bytes := bytes, pos := 0, acc := 0#64, cnt := 0 } :=
    ⟨Nat.zero_le 64, topOnly_zero 0⟩
  obtain ⟨r, hrun, hr, hremaining, -⟩ := refill_spec hempty
  exact ⟨r, hrun, hr, hremaining⟩

theorem takeBits_spec {self : BitReader} (hvalid : self.Valid) {n : ℕ} (hpos : 0 < n)
    (hn : n ≤ self.cnt) (h64 : n < 64) :
    ∃ val r, self.takeBits n = some (val, r) ∧ r.Valid ∧
      self.remaining = bitsOf n val ++ r.remaining ∧ ∀ i, n ≤ i → val.getLsbD i = false := by
  have hcnt : self.cnt ≤ 64 := hvalid.1
  refine ⟨self.acc >>> (64 - n), { self with acc := self.acc <<< n, cnt := self.cnt - n },
    ?_, ⟨?_, topOnly_shiftLeft hvalid.2⟩, ?_, ?_⟩
  · rw [takeBits, checkedSub_of_le h64.le, checkedSub_of_le hn, checkedShl_of_lt _ h64]
    show (do
      let val ← checkedShr self.acc (64 - n)
      some (val, _)) = _
    rw [checkedShr_of_lt _ (by omega)]
    rfl
  · show self.cnt - n ≤ 64
    omega
  · rw [remaining, topBits_split self.acc hn hcnt, List.append_assoc]
    rfl
  · intro i hi
    exact getLsbD_ushiftRight_top self.acc h64.le hi

/-- A short field in front of the input is read back as its low bits. -/
theorem readShort_spec {self : BitReader} (hvalid : self.Valid) {n : ℕ} (hn : n ≤ 57)
    {x : BitVec 64} {rest : List Bool} (hbits : self.remaining = bitsOf n x ++ rest) :
    ∃ r, self.readShort n = some (lowBits n x, r) ∧ r.Valid ∧ r.remaining = rest := by
  -- Whatever buffer serves the read, its top bits are the field.
  have take : ∀ r : BitReader, r.Valid → r.remaining = bitsOf n x ++ rest → 0 < n →
      n ≤ r.cnt → ∃ r', r.takeBits n = some (lowBits n x, r') ∧ r'.Valid ∧
        r'.remaining = rest := by
    intro r hr hremaining hpos hcnt
    obtain ⟨val, r', hrun, hr', hsplit, hhigh⟩ := takeBits_spec hr hpos hcnt (by omega)
    have happend := List.append_inj (hsplit.symm.trans hremaining) (by simp)
    have hval : val = lowBits n x := lowBits_eq_of_bitsOf happend.1 hhigh
    exact ⟨r', by rw [hrun, hval], hr', happend.2⟩
  by_cases hzero : n = 0
  · subst hzero
    refine ⟨self, ?_, hvalid, by simpa using hbits⟩
    rw [readShort, if_pos rfl]
    congr 2
    ext i hi
    simp [lowBits]
  · by_cases hcnt : self.cnt < n
    · obtain ⟨r, hrun, hr, hremaining, hfull⟩ := refill_spec hvalid
      have henough : ¬ r.cnt < n := by
        have hlen : n ≤ r.remaining.length := by
          rw [hremaining, hbits, List.length_append, length_bitsOf]
          omega
        omega
      obtain ⟨r', htake, hr', hrest⟩ :=
        take r hr (hremaining.trans hbits) (by omega) (by omega)
      refine ⟨r', ?_, hr', hrest⟩
      rw [readShort, if_neg hzero, if_pos hcnt, hrun]
      show (if r.cnt < n then r.takeRest else r.takeBits n) = _
      rw [if_neg henough, htake]
    · obtain ⟨r', htake, hr', hrest⟩ := take self hvalid hbits (by omega) (by omega)
      refine ⟨r', ?_, hr', hrest⟩
      rw [readShort, if_neg hzero, if_neg hcnt, htake]

theorem lowBits_halves {n : ℕ} (hlo : 32 ≤ n) (hhi : n ≤ 64) (x : BitVec 64) :
    lowBits 32 (x >>> (n - 32)) <<< (n - 32) ||| lowBits (n - 32) x = lowBits n x := by
  ext i hi
  simp only [← BitVec.getLsbD_eq_getElem, BitVec.getLsbD_or, BitVec.getLsbD_shiftLeft,
    getLsbD_lowBits, BitVec.getLsbD_ushiftRight]
  by_cases hlow : i < n - 32
  · simp only [hlow, hi, show i < n by omega, decide_true, Bool.not_true, Bool.and_false,
      Bool.false_and, Bool.false_or]
  · have hback : n - 32 + (i - (n - 32)) = i := by omega
    have hwidth : i - (n - 32) < 32 ↔ i < n := by omega
    simp only [hlow, hi, hback, hwidth, decide_true, decide_false, Bool.not_false,
      Bool.true_and, Bool.false_and, Bool.or_false]

/-- A field in front of the input is read back as its low bits, up to 64 of them. -/
theorem readBits_spec {self : BitReader} (hvalid : self.Valid) {n : ℕ} (hn : n ≤ 64)
    {x : BitVec 64} {rest : List Bool} (hbits : self.remaining = bitsOf n x ++ rest) :
    ∃ r, self.readBits n = some (lowBits n x, r) ∧ r.Valid ∧ r.remaining = rest := by
  by_cases hwide : 57 < n
  · have hsum : 32 + (n - 32) = n := by omega
    rw [← hsum, bitsOf_add, List.append_assoc] at hbits
    obtain ⟨r, hhi, hr, hremaining⟩ := readShort_spec hvalid (by omega) hbits
    obtain ⟨r', hlo, hr', hrest⟩ := readShort_spec hr (by omega) hremaining
    refine ⟨r', ?_, hr', hrest⟩
    rw [readBits, if_pos hwide, checkedSub_of_le (by omega), hhi]
    simp only [bind, Option.bind, hlo,
      checkedShl_of_lt _ (show n - 32 < 64 by omega), lowBits_halves (by omega) hn]
    rfl
  · rw [readBits, if_neg hwide]
    exact readShort_spec hvalid (by omega) hbits

theorem takeBit_spec {self : BitReader} (hvalid : self.Valid) (hcnt : 0 < self.cnt) :
    ∃ bit r, self.takeBit = some (bit, r) ∧ r.Valid ∧ self.remaining = bit :: r.remaining := by
  have hle : self.cnt ≤ 64 := hvalid.1
  refine ⟨(self.acc >>> 63) &&& 1#64 == 1#64,
    { self with acc := self.acc <<< 1, cnt := self.cnt - 1 }, ?_,
    ⟨?_, topOnly_shiftLeft hvalid.2⟩, ?_⟩
  · rw [takeBit, checkedSub_of_le (by omega)]
    rfl
  · show self.cnt - 1 ≤ 64
    omega
  · have hbit : bitsOf 1 (self.acc >>> (64 - 1)) = [(self.acc >>> 63) &&& 1#64 == 1#64] := by
      rw [bitsOf_one]
      congr 1
      rw [Bool.eq_iff_iff, beq_iff_eq, BitVec.and_one_eq_setWidth_ofBool_getLsbD]
      cases (self.acc >>> 63).getLsbD 0 <;> decide
    rw [remaining, topBits_split self.acc (show 1 ≤ self.cnt by omega) hle, hbit,
      List.append_assoc]
    rfl

theorem readBit_spec {self : BitReader} (hvalid : self.Valid) {bit : Bool} {rest : List Bool}
    (hbits : self.remaining = bit :: rest) :
    ∃ r, self.readBit = some (bit, r) ∧ r.Valid ∧ r.remaining = rest := by
  have take : ∀ r : BitReader, r.Valid → r.remaining = bit :: rest → 0 < r.cnt →
      ∃ r', r.takeBit = some (bit, r') ∧ r'.Valid ∧ r'.remaining = rest := by
    intro r hr hremaining hcnt
    obtain ⟨b, r', hrun, hr', hsplit⟩ := takeBit_spec hr hcnt
    have hcons := List.cons.inj (hsplit.symm.trans hremaining)
    exact ⟨r', by rw [hrun, hcons.1], hr', hcons.2⟩
  by_cases hzero : self.cnt = 0
  · obtain ⟨r, hrun, hr, hremaining, hfull⟩ := refill_spec hvalid
    have henough : ¬ r.cnt = 0 := by
      have hlen : 1 ≤ r.remaining.length := by
        rw [hremaining, hbits, List.length_cons]
        omega
      omega
    obtain ⟨r', htake, hr', hrest⟩ := take r hr (hremaining.trans hbits) (by omega)
    refine ⟨r', ?_, hr', hrest⟩
    rw [readBit, if_pos hzero, hrun]
    show (if r.cnt = 0 then some (false, r) else r.takeBit) = _
    rw [if_neg henough, htake]
  · obtain ⟨r', htake, hr', hrest⟩ := take self hvalid hbits (by omega)
    refine ⟨r', ?_, hr', hrest⟩
    rw [readBit, if_neg hzero, htake]

end BitReader

end DeltaX.Codec.BitIo
