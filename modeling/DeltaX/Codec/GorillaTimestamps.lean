import DeltaX.Codec.BitIo
/-!
# Gorilla timestamps

Delta-of-delta encoding of 64-bit integers.  The release profile's arithmetic wraps, so
values, deltas and their differences are 64-bit words throughout.
-/

namespace DeltaX.Codec.GorillaTimestamps

open Support.BitStream BitIo

/-- `((val as i64) << shift) >> shift` with `shift = 64 - bits`. -/
def signExtend (val : BitVec 64) (bits : ℕ) : BitVec 64 :=
  (val <<< (64 - bits)).sshiftRight (64 - bits)

structure PrefixClass where
  code : BitVec 64
  codeBits : ℕ
  width : ℕ
deriving DecidableEq, Repr

/-- `(lo..=hi).contains(&dod)` on the word as an `i64`. -/
def within (lo hi : ℤ) (dod : BitVec 64) : Bool :=
  decide (lo ≤ dod.toInt) && decide (dod.toInt ≤ hi)

def prefixClass (dod : BitVec 64) : PrefixClass :=
  if within (-64) 63 dod then { code := 0b10#64, codeBits := 2, width := 7 }
  else if within (-256) 255 dod then { code := 0b110#64, codeBits := 3, width := 9 }
  else if within (-2048) 2047 dod then { code := 0b1110#64, codeBits := 4, width := 12 }
  else { code := 0b1111#64, codeBits := 4, width := 64 }

def writeDod (writer : BitWriter) (dod : BitVec 64) : BitWriter :=
  if dod = 0#64 then writer.writeBit false
  else
    let cls := prefixClass dod
    (writer.writeBits cls.code cls.codeBits).writeBits dod cls.width

/-- The loop of `encode_timestamps` over the values from the third on. -/
def encodeRest : BitWriter → BitVec 64 → BitVec 64 → List (BitVec 64) → BitWriter
  | writer, _, _, [] => writer
  | writer, prev, prevDelta, value :: rest =>
      let delta := value - prev
      encodeRest (writeDod writer (delta - prevDelta)) value delta rest

def encodeTimestamps : List (BitVec 64) → List Byte
  | [] => []
  | [first] => (BitWriter.new.writeBits first 64).finish
  | first :: second :: rest =>
      let prevDelta := second - first
      let writer := (BitWriter.new.writeBits first 64).writeBits prevDelta 64
      (encodeRest writer second prevDelta rest).finish

/-- The bit after the prefixes read so far, and either the class it ends or the next. -/
def readClass (reader : BitReader) (width : ℕ)
    (next : BitReader → Option (BitVec 64 × BitReader)) : Option (BitVec 64 × BitReader) := do
  let (bit, reader) ← reader.readBit
  if bit then next reader
  else do
    let (val, reader) ← reader.readBits width
    return (signExtend val width, reader)

def readDod (reader : BitReader) : Option (BitVec 64 × BitReader) := do
  let (bit, reader) ← reader.readBit
  if bit then
    readClass reader 7 fun reader => readClass reader 9 fun reader =>
      readClass reader 12 fun reader => reader.readBits 64
  else return (0#64, reader)

/-- The loop of `decode_timestamps_each` over the values from the third on. -/
def decodeRest : ℕ → BitReader → BitVec 64 → BitVec 64 → Option (List (BitVec 64))
  | 0, _, _, _ => some []
  | count + 1, reader, prevDelta, cur => do
      let (dod, reader) ← readDod reader
      let values ← decodeRest count reader (prevDelta + dod) (cur + (prevDelta + dod))
      return (cur + (prevDelta + dod)) :: values

def decodeDeltas (reader : BitReader) (first : BitVec 64) : ℕ → Option (List (BitVec 64))
  | 0 => some []
  | count + 1 => do
      let (prevDelta, reader) ← reader.readBits 64
      let values ← decodeRest count reader prevDelta (first + prevDelta)
      return (first + prevDelta) :: values

def decodeTimestamps (data : List Byte) : ℕ → Option (List (BitVec 64))
  | 0 => some []
  | count + 1 => do
      let reader ← BitReader.new data
      let (first, reader) ← reader.readBits 64
      let values ← decodeDeltas reader first count
      return first :: values

/-! ## The classes -/

/-- A word whose signed value fits `n` bits repeats its bit `n - 1` above it. -/
theorem getLsbD_of_fits {n : ℕ} {x : BitVec 64}
    (hlo : -(2 ^ (n - 1) : ℤ) ≤ x.toInt) (hhi : x.toInt < (2 ^ (n - 1) : ℤ)) {i : ℕ}
    (hi : n - 1 ≤ i) (h64 : i < 64) : x.getLsbD i = x.msb := by
  have hpow : 2 ^ (n - 1) ≤ 2 ^ i := Nat.pow_le_pow_right (by decide) hi
  have hlt : x.toNat < 2 ^ 64 := x.isLt
  have hcast : ((2 ^ (n - 1) : ℕ) : ℤ) = (2 ^ (n - 1) : ℤ) := by push_cast; rfl
  rw [← hcast] at hlo hhi
  cases hmsb : x.msb with
  | false =>
      rw [BitVec.toInt_eq_toNat_of_msb hmsb] at hhi
      exact Nat.testBit_lt_two_pow (by omega)
  | true =>
      have hsign : x.toInt = (x.toNat : ℤ) - ((2 ^ 64 : ℕ) : ℤ) := by
        rw [BitVec.toInt_eq_msb_cond, hmsb, if_pos rfl]
      rw [hsign] at hlo
      have hnot : (~~~x).toNat < 2 ^ i := by
        rw [BitVec.toNat_not]
        omega
      have hbit : (~~~x).getLsbD i = false := Nat.testBit_lt_two_pow hnot
      rw [BitVec.getLsbD_not] at hbit
      simpa [h64] using hbit

/-- A word that fits `n` bits survives the cut to them and the sign extension. -/
theorem signExtend_lowBits {n : ℕ} {x : BitVec 64} (hpos : 0 < n) (hn : n ≤ 64)
    (hlo : -(2 ^ (n - 1) : ℤ) ≤ x.toInt) (hhi : x.toInt < (2 ^ (n - 1) : ℤ)) :
    signExtend (lowBits n x) n = x := by
  have hrepeat : ∀ i, n - 1 ≤ i → i < 64 → x.getLsbD i = x.msb := fun i hi h64 =>
    getLsbD_of_fits hlo hhi hi h64
  have htop : (lowBits n x <<< (64 - n)).msb = x.msb := by
    rw [BitVec.msb_eq_getLsbD_last, BitVec.getLsbD_shiftLeft, getLsbD_lowBits]
    have hback : 64 - 1 - (64 - n) = n - 1 := by omega
    simp only [hback, show ¬ 64 - 1 < 64 - n by omega, show n - 1 < n by omega, decide_true,
      decide_false, Bool.not_false, Bool.true_and, show (64 - 1 < 64) by omega]
    exact hrepeat _ (le_refl _) (by omega)
  ext i hi
  rw [← BitVec.getLsbD_eq_getElem, ← BitVec.getLsbD_eq_getElem, signExtend,
    BitVec.getLsbD_sshiftRight, htop]
  by_cases hin : i < n
  · have hsum : 64 - n + i < 64 := by omega
    have hback : 64 - n + i - (64 - n) = i := by omega
    simp only [hsum, if_true, BitVec.getLsbD_shiftLeft, hback, getLsbD_lowBits, hin,
      show ¬ 64 - n + i < 64 - n by omega, show ¬ 64 ≤ i by omega, decide_true, decide_false,
      Bool.not_false, Bool.true_and]
  · have hsum : ¬ 64 - n + i < 64 := by omega
    simp only [hsum, if_false, show ¬ 64 ≤ i by omega, decide_false, Bool.not_false,
      Bool.true_and]
    exact (hrepeat i (by omega) hi).symm

theorem within_iff (lo hi : ℤ) (dod : BitVec 64) :
    within lo hi dod = true ↔ lo ≤ dod.toInt ∧ dod.toInt ≤ hi := by
  simp only [within, Bool.and_eq_true, decide_eq_true_eq]

/-- The chosen class has room for the value in its signed width. -/
theorem prefixClass_fits (dod : BitVec 64) :
    0 < (prefixClass dod).width ∧ (prefixClass dod).width ≤ 64 ∧
      -(2 ^ ((prefixClass dod).width - 1) : ℤ) ≤ dod.toInt ∧
      dod.toInt < (2 ^ ((prefixClass dod).width - 1) : ℤ) := by
  have hlo := BitVec.le_toInt dod
  have hhi := BitVec.toInt_lt (x := dod)
  unfold prefixClass
  by_cases h7 : within (-64) 63 dod = true
  · have hrange := (within_iff _ _ _).mp h7
    rw [if_pos h7]
    norm_num
    omega
  · rw [if_neg h7]
    by_cases h9 : within (-256) 255 dod = true
    · have hrange := (within_iff _ _ _).mp h9
      rw [if_pos h9]
      norm_num
      omega
    · rw [if_neg h9]
      by_cases h12 : within (-2048) 2047 dod = true
      · have hrange := (within_iff _ _ _).mp h12
        rw [if_pos h12]
        norm_num
        omega
      · rw [if_neg h12]
        exact ⟨by decide, le_refl 64, hlo, hhi⟩

theorem signExtend_prefixClass (dod : BitVec 64) :
    signExtend (lowBits (prefixClass dod).width dod) (prefixClass dod).width = dod := by
  obtain ⟨hpos, hle, hlo, hhi⟩ := prefixClass_fits dod
  exact signExtend_lowBits hpos hle hlo hhi

def codeOf (dod : BitVec 64) : List Bool :=
  if dod = 0#64 then [false]
  else bitsOf (prefixClass dod).codeBits (prefixClass dod).code ++
    bitsOf (prefixClass dod).width dod

theorem writeDod_spec {writer : BitWriter} (hvalid : writer.Valid) (dod : BitVec 64) :
    (writeDod writer dod).Valid ∧ (writeDod writer dod).bits = writer.bits ++ codeOf dod := by
  unfold writeDod codeOf
  by_cases hzero : dod = 0#64
  · rw [if_pos hzero, if_pos hzero]
    exact BitWriter.writeBit_spec hvalid false
  · rw [if_neg hzero, if_neg hzero]
    have hcode := BitWriter.writeBits_spec hvalid (prefixClass dod).code
      (prefixClass dod).codeBits
    have hfield := BitWriter.writeBits_spec hcode.1 dod (prefixClass dod).width
    refine ⟨hfield.1, hfield.2.trans ?_⟩
    rw [hcode.2, List.append_assoc]

/-- A clear bit ends the prefix: the class's field follows. -/
theorem readClass_ends {reader : BitReader} {width : ℕ} {dod : BitVec 64} {rest : List Bool}
    (next : BitReader → Option (BitVec 64 × BitReader)) (hreader : reader.Valid)
    (hwidth : width ≤ 64) (hbits : reader.remaining = false :: (bitsOf width dod ++ rest)) :
    ∃ r, readClass reader width next = some (signExtend (lowBits width dod) width, r) ∧
      r.Valid ∧ r.remaining = rest := by
  obtain ⟨r₁, hbit, hr₁, hrest₁⟩ := BitReader.readBit_spec hreader hbits
  obtain ⟨r, hfield, hr, hrest⟩ := BitReader.readBits_spec hr₁ hwidth hrest₁
  refine ⟨r, ?_, hr, hrest⟩
  rw [readClass, hbit]
  simp only [bind, Option.bind, Bool.false_eq_true, if_false, hfield]
  rfl

theorem readClass_goes_on {reader : BitReader} {rest : List Bool} (width : ℕ)
    (next : BitReader → Option (BitVec 64 × BitReader)) (hreader : reader.Valid)
    (hbits : reader.remaining = true :: rest) :
    ∃ r, readClass reader width next = next r ∧ r.Valid ∧ r.remaining = rest := by
  obtain ⟨r, hbit, hr, hrest⟩ := BitReader.readBit_spec hreader hbits
  refine ⟨r, ?_, hr, hrest⟩
  rw [readClass, hbit]
  rfl

theorem readDod_goes_on {reader : BitReader} {rest : List Bool} (hreader : reader.Valid)
    (hbits : reader.remaining = true :: rest) :
    ∃ r, readDod reader = (readClass r 7 fun reader => readClass reader 9 fun reader =>
        readClass reader 12 fun reader => reader.readBits 64) ∧ r.Valid ∧ r.remaining = rest := by
  obtain ⟨r, hbit, hr, hrest⟩ := BitReader.readBit_spec hreader hbits
  refine ⟨r, ?_, hr, hrest⟩
  rw [readDod, hbit]
  rfl

/-- The decoder reads each delta of deltas back, whatever its class. -/
theorem readDod_spec {reader : BitReader} {dod : BitVec 64} {rest : List Bool}
    (hreader : reader.Valid) (hbits : reader.remaining = codeOf dod ++ rest) :
    ∃ r, readDod reader = some (dod, r) ∧ r.Valid ∧ r.remaining = rest := by
  by_cases hzero : dod = 0#64
  · rw [codeOf, if_pos hzero] at hbits
    obtain ⟨r, hbit, hr, hrest⟩ := BitReader.readBit_spec hreader hbits
    refine ⟨r, ?_, hr, hrest⟩
    rw [readDod, hbit, hzero]
    rfl
  · have hback := signExtend_prefixClass dod
    rw [codeOf, if_neg hzero] at hbits
    unfold prefixClass at hbits hback
    by_cases h7 : within (-64) 63 dod = true
    · rw [if_pos h7] at hbits hback
      obtain ⟨r₁, hstep, hr₁, hrest₁⟩ := readDod_goes_on hreader hbits
      obtain ⟨r, hread, hr, hrest⟩ := readClass_ends _ hr₁ (by decide) hrest₁
      exact ⟨r, by rw [hstep, hread, hback], hr, hrest⟩
    · rw [if_neg h7] at hbits hback
      by_cases h9 : within (-256) 255 dod = true
      · rw [if_pos h9] at hbits hback
        obtain ⟨r₁, hstep, hr₁, hrest₁⟩ := readDod_goes_on hreader hbits
        obtain ⟨r₂, hstep₂, hr₂, hrest₂⟩ := readClass_goes_on _ _ hr₁ hrest₁
        obtain ⟨r, hread, hr, hrest⟩ := readClass_ends _ hr₂ (by decide) hrest₂
        exact ⟨r, by rw [hstep, hstep₂, hread, hback], hr, hrest⟩
      · rw [if_neg h9] at hbits hback
        by_cases h12 : within (-2048) 2047 dod = true
        · rw [if_pos h12] at hbits hback
          obtain ⟨r₁, hstep, hr₁, hrest₁⟩ := readDod_goes_on hreader hbits
          obtain ⟨r₂, hstep₂, hr₂, hrest₂⟩ := readClass_goes_on _ _ hr₁ hrest₁
          obtain ⟨r₃, hstep₃, hr₃, hrest₃⟩ := readClass_goes_on _ _ hr₂ hrest₂
          obtain ⟨r, hread, hr, hrest⟩ := readClass_ends _ hr₃ (by decide) hrest₃
          exact ⟨r, by rw [hstep, hstep₂, hstep₃, hread, hback], hr, hrest⟩
        · rw [if_neg h12] at hbits
          obtain ⟨r₁, hstep, hr₁, hrest₁⟩ := readDod_goes_on hreader hbits
          obtain ⟨r₂, hstep₂, hr₂, hrest₂⟩ := readClass_goes_on _ _ hr₁ hrest₁
          obtain ⟨r₃, hstep₃, hr₃, hrest₃⟩ := readClass_goes_on _ _ hr₂ hrest₂
          obtain ⟨r₄, hstep₄, hr₄, hrest₄⟩ := readClass_goes_on _ _ hr₃ hrest₃
          obtain ⟨r, hread, hr, hrest⟩ := BitReader.readBits_spec hr₄ (le_refl 64) hrest₄
          refine ⟨r, ?_, hr, hrest⟩
          rw [hstep, hstep₂, hstep₃, hstep₄, hread, lowBits_of_le (le_refl 64)]

/-! ## Whole columns -/

def codesOf (prev prevDelta : BitVec 64) : List (BitVec 64) → List Bool
  | [] => []
  | value :: rest =>
      codeOf (value - prev - prevDelta) ++ codesOf value (value - prev) rest

theorem encodeRest_spec (values : List (BitVec 64)) {writer : BitWriter} (hvalid : writer.Valid)
    (prev prevDelta : BitVec 64) :
    (encodeRest writer prev prevDelta values).Valid ∧
      (encodeRest writer prev prevDelta values).bits =
        writer.bits ++ codesOf prev prevDelta values := by
  induction values generalizing writer prev prevDelta with
  | nil => exact ⟨hvalid, (List.append_nil _).symm⟩
  | cons value rest ih =>
      have hstep := writeDod_spec hvalid (value - prev - prevDelta)
      have hrun := ih hstep.1 value (value - prev)
      rw [encodeRest, codesOf]
      refine ⟨hrun.1, hrun.2.trans ?_⟩
      rw [hstep.2, List.append_assoc]

/-- The two running sums undo the two differences, wrapped or not. -/
theorem decodeRest_spec (values : List (BitVec 64)) {reader : BitReader} {rest : List Bool}
    {prev prevDelta : BitVec 64} (hreader : reader.Valid)
    (hbits : reader.remaining = codesOf prev prevDelta values ++ rest) :
    decodeRest values.length reader prevDelta prev = some values := by
  induction values generalizing reader prev prevDelta with
  | nil => rfl
  | cons value values ih =>
      rw [codesOf, List.append_assoc] at hbits
      obtain ⟨r, hdod, hr, hrest⟩ := readDod_spec hreader hbits
      have hdelta : prevDelta + (value - prev - prevDelta) = value - prev := by
        rw [BitVec.add_comm, BitVec.sub_add_cancel]
      have hvalue : prev + (value - prev) = value := by
        rw [BitVec.add_comm, BitVec.sub_add_cancel]
      have hrun := ih hr hrest
      rw [List.length_cons, decodeRest, hdod]
      simp only [bind, Option.bind, hdelta, hvalue, hrun]
      rfl

theorem decodeTimestamps_encodeTimestamps (values : List (BitVec 64)) :
    decodeTimestamps (encodeTimestamps values) values.length = some values := by
  match values with
  | [] => rfl
  | [first] =>
      obtain ⟨hwriter, hfirst⟩ := BitWriter.writeBits_spec BitWriter.valid_new first 64
      obtain ⟨pad, hpad⟩ := BitWriter.streamOf_finish hwriter
      obtain ⟨r₀, hnew, hr₀, hstream⟩ := BitReader.new_spec (encodeTimestamps [first])
      rw [hfirst, BitWriter.bits_new, List.nil_append] at hpad
      obtain ⟨r, hread, hr, hrest⟩ :=
        BitReader.readBits_spec hr₀ (le_refl 64) (hstream.trans hpad)
      rw [List.length_singleton, decodeTimestamps, hnew]
      simp only [bind, Option.bind, hread, lowBits_of_le (le_refl 64)]
      rfl
  | first :: second :: rest =>
      obtain ⟨hw₁, hfirst⟩ := BitWriter.writeBits_spec BitWriter.valid_new first 64
      obtain ⟨hw₂, hsecond⟩ := BitWriter.writeBits_spec hw₁ (second - first) 64
      obtain ⟨hwriter, hcodes⟩ := encodeRest_spec rest hw₂ second (second - first)
      obtain ⟨pad, hpad⟩ := BitWriter.streamOf_finish hwriter
      obtain ⟨r₀, hnew, hr₀, hstream⟩ :=
        BitReader.new_spec (encodeTimestamps (first :: second :: rest))
      rw [hcodes, hsecond, hfirst, BitWriter.bits_new, List.nil_append, List.append_assoc,
        List.append_assoc] at hpad
      obtain ⟨r₁, hread₁, hr₁, hrest₁⟩ :=
        BitReader.readBits_spec hr₀ (le_refl 64) (hstream.trans hpad)
      obtain ⟨r₂, hread₂, hr₂, hrest₂⟩ := BitReader.readBits_spec hr₁ (le_refl 64) hrest₁
      have hrun := decodeRest_spec rest hr₂ hrest₂
      have hvalue : first + (second - first) = second := by
        rw [BitVec.add_comm, BitVec.sub_add_cancel]
      rw [List.length_cons, List.length_cons, decodeTimestamps, hnew]
      simp only [bind, Option.bind, hread₁, lowBits_of_le (le_refl 64), decodeDeltas, hread₂,
        hvalue, hrun]
      rfl

/-- Delta-of-delta encoding is lossless on every list of 64-bit integers, and the class of a
delta of deltas holds it. -/
theorem encodeTimestamps_lossless (values : List (BitVec 64)) :
    decodeTimestamps (encodeTimestamps values) values.length = some values ∧
      ∀ dod : BitVec 64,
        -(2 ^ ((prefixClass dod).width - 1) : ℤ) ≤ dod.toInt ∧
          dod.toInt < (2 ^ ((prefixClass dod).width - 1) : ℤ) ∧
          signExtend (lowBits (prefixClass dod).width dod) (prefixClass dod).width = dod :=
  ⟨decodeTimestamps_encodeTimestamps values, fun dod =>
    ⟨(prefixClass_fits dod).2.2.1, (prefixClass_fits dod).2.2.2, signExtend_prefixClass dod⟩⟩

end DeltaX.Codec.GorillaTimestamps
