import DeltaX.Codec.BitIo
/-!
# Gorilla floats

Each float is XORed with its predecessor; a nonzero XOR is stored as its meaningful bits,
either inside the window of leading and trailing zeros opened last or with a new window.
`encode_floats` and `encode_floats_f32` are one algorithm at two widths.  Floats are bit
patterns: only `to_bits` and `from_bits` ever touch them.
-/

namespace DeltaX.Codec.GorillaFloats

open Support.BitStream BitIo

/-- The widths of a pattern and of the two header fields of a new window. -/
structure Format where
  width : ℕ
  fieldBits : ℕ
  width_eq : width = 2 ^ fieldBits
  width_le : width ≤ 64

def f64 : Format := { width := 64, fieldBits := 6, width_eq := by decide, width_le := by decide }

def f32 : Format := { width := 32, fieldBits := 5, width_eq := by decide, width_le := by decide }

/-- `prev_leading` and `prev_trailing`. -/
structure Window where
  leading : ℕ
  trailing : ℕ
deriving DecidableEq, Repr

variable (fmt : Format)

/-! ## The encoder -/

structure EncodeState where
  writer : BitWriter
  prevBits : BitVec fmt.width
  window : Window

def sentinel : Window := { leading := fmt.width, trailing := 0 }

/-- `write_bits` of a pattern, widened to `u64`. -/
def writePattern {w : ℕ} (writer : BitWriter) (v : BitVec w) (n : ℕ) : BitWriter :=
  writer.writeBits (v.setWidth 64) n

def windowOf {w : ℕ} (xor : BitVec w) : Window :=
  { leading := xor.clz.toNat, trailing := xor.ctz.toNat }

/-- The XOR's meaningful bits lie within the previous window. -/
def fits (prev window : Window) : Bool :=
  decide (prev.leading ≠ fmt.width) && decide (prev.leading ≤ window.leading) &&
    decide (prev.trailing ≤ window.trailing)

/-- The bits between the leading and the trailing zeros. -/
def meaningful (window : Window) : ℕ := fmt.width - window.leading - window.trailing

variable {fmt}

def writeInWindow (writer : BitWriter) (xor : BitVec fmt.width) (prev : Window) : BitWriter :=
  writePattern (writer.writeBit false) (xor >>> prev.trailing) (meaningful fmt prev)

def writeNewWindow (writer : BitWriter) (xor : BitVec fmt.width) (window : Window) : BitWriter :=
  let writer := writer.writeBit true
  let writer := writer.writeBits (BitVec.ofNat 64 window.leading) fmt.fieldBits
  let writer := writer.writeBits (BitVec.ofNat 64 (meaningful fmt window)) fmt.fieldBits
  writePattern writer (xor >>> window.trailing) (meaningful fmt window)

def encodeValue (self : EncodeState fmt) (bits : BitVec fmt.width) : EncodeState fmt :=
  let xor := self.prevBits ^^^ bits
  if xor = 0#(fmt.width) then
    { self with writer := self.writer.writeBit false, prevBits := bits }
  else
    let writer := self.writer.writeBit true
    if fits fmt self.window (windowOf xor) then
      { self with writer := writeInWindow writer xor self.window, prevBits := bits }
    else
      { writer := writeNewWindow writer xor (windowOf xor)
        prevBits := bits
        window := windowOf xor }

def encodeFirst (first : BitVec fmt.width) : EncodeState fmt :=
  { writer := writePattern BitWriter.new first fmt.width
    prevBits := first
    window := sentinel fmt }

def encodeStates (fmt : Format) : List (BitVec fmt.width) → List (EncodeState fmt)
  | [] => []
  | first :: rest => rest.scanl encodeValue (encodeFirst first)

def encodePatterns (fmt : Format) : List (BitVec fmt.width) → List Byte
  | [] => []
  | first :: rest => (rest.foldl encodeValue (encodeFirst first)).writer.finish

/-! ## The decoder -/

structure DecodeState (fmt : Format) where
  reader : BitReader
  prevBits : BitVec fmt.width
  window : Window

/-- `prev_bits ^= (xor_meaningful as uN) << trailing`. -/
def applyXor (self : DecodeState fmt) (reader : BitReader) (xorMeaningful : BitVec 64)
    (window : Window) : Option (DecodeState fmt) := do
  let xor ← checkedShl (xorMeaningful.setWidth fmt.width) window.trailing
  return { reader := reader, prevBits := self.prevBits ^^^ xor, window := window }

def decodeInWindow (self : DecodeState fmt) (reader : BitReader) :
    Option (DecodeState fmt) := do
  let rest ← checkedSub fmt.width self.window.leading
  let meaningful ← checkedSub rest self.window.trailing
  let (xorMeaningful, reader) ← reader.readBits meaningful
  applyXor self reader xorMeaningful self.window

/-- A length field of 0 stands for the full width. -/
def lengthOfField (fmt : Format) (field : BitVec 64) : ℕ :=
  let meaningful := (field.setWidth 8).toNat
  if meaningful = 0 then fmt.width else meaningful

def decodeNewWindow (self : DecodeState fmt) (reader : BitReader) :
    Option (DecodeState fmt) := do
  let (leading, reader) ← reader.readBits fmt.fieldBits
  let leading := (leading.setWidth 8).toNat
  let (field, reader) ← reader.readBits fmt.fieldBits
  let meaningful := lengthOfField fmt field
  let rest ← checkedSub fmt.width leading
  let trailing ← checkedSub rest meaningful
  let (xorMeaningful, reader) ← reader.readBits meaningful
  applyXor self reader xorMeaningful { leading := leading, trailing := trailing }

def decodeChanged (self : DecodeState fmt) (reader : BitReader) :
    Option (DecodeState fmt) := do
  let (bit, reader) ← reader.readBit
  if bit then decodeNewWindow self reader else decodeInWindow self reader

def decodeValue (self : DecodeState fmt) : Option (DecodeState fmt) := do
  let (bit, reader) ← self.reader.readBit
  if bit then decodeChanged self reader else some { self with reader := reader }

/-- The states after each of the next `count` values. -/
def decodeRest : ℕ → DecodeState fmt → Option (List (DecodeState fmt))
  | 0, _ => some []
  | count + 1, self => do
      let next ← decodeValue self
      let states ← decodeRest count next
      return next :: states

def decodeFirst (fmt : Format) (data : List Byte) : Option (DecodeState fmt) := do
  let reader ← BitReader.new data
  let (first, reader) ← reader.readBits fmt.width
  return { reader := reader, prevBits := first.setWidth fmt.width, window := ⟨0, 0⟩ }

def decodeStates (fmt : Format) (data : List Byte) : ℕ → Option (List (DecodeState fmt))
  | 0 => some []
  | count + 1 => do
      let first ← decodeFirst fmt data
      let states ← decodeRest count first
      return first :: states

/-- Every value handed out is the state's pattern. -/
def decodePatterns (fmt : Format) (data : List Byte) (count : ℕ) :
    Option (List (BitVec fmt.width)) :=
  (decodeStates fmt data count).map (List.map DecodeState.prevBits)

def encodeFloats (values : List (BitVec 64)) : List Byte := encodePatterns f64 values

def decodeFloats (data : List Byte) (count : ℕ) : Option (List (BitVec 64)) :=
  decodePatterns f64 data count

def encodeFloatsF32 (values : List (BitVec 32)) : List Byte := encodePatterns f32 values

def decodeFloatsF32 (data : List Byte) (count : ℕ) : Option (List (BitVec 32)) :=
  decodePatterns f32 data count

/-! ## Windows -/

/-- No bit of the XOR lies outside the window. -/
def Spans (window : Window) (xor : BitVec fmt.width) : Prop :=
  (∀ i < window.trailing, xor.getLsbD i = false) ∧
    ∀ i, fmt.width - window.leading ≤ i → xor.getLsbD i = false

/-- The window leaves a meaningful bit. -/
def Open (fmt : Format) (window : Window) : Prop :=
  window.leading + window.trailing < fmt.width

theorem width_pos (fmt : Format) : 0 < fmt.width := by
  rw [fmt.width_eq]
  exact Nat.two_pow_pos _

theorem open_windowOf {xor : BitVec fmt.width} (hxor : xor ≠ 0#(fmt.width)) :
    Open fmt (windowOf xor) := by
  have hpos := width_pos fmt
  have htop : xor.getLsbD (fmt.width - 1 - xor.clz.toNat) = true :=
    BitVec.getLsbD_true_clz_of_ne_zero hpos hxor
  have hlead : xor.clz.toNat < fmt.width := by
    have hlt := BitVec.lt_def.mp (BitVec.clz_lt_iff_ne_zero.mpr hxor)
    simpa using hlt
  have htrail : ¬ fmt.width - 1 - xor.clz.toNat < xor.ctz.toNat := by
    intro hlt
    rw [BitVec.getLsbD_false_of_lt_ctz hlt] at htop
    exact absurd htop (by decide)
  show xor.clz.toNat + xor.ctz.toNat < fmt.width
  omega

theorem spans_windowOf (xor : BitVec fmt.width) : Spans (windowOf xor) xor := by
  constructor
  · intro i hi
    exact BitVec.getLsbD_false_of_lt_ctz hi
  · intro i hi
    have hle : 2 ^ (fmt.width - xor.clz.toNat) ≤ 2 ^ i := Nat.pow_le_pow_right (by decide) hi
    exact Nat.testBit_lt_two_pow (lt_of_lt_of_le BitVec.toNat_lt_two_pow_sub_clz hle)

theorem fits_iff (prev window : Window) :
    fits fmt prev window = true ↔ prev.leading ≠ fmt.width ∧ prev.leading ≤ window.leading ∧
      prev.trailing ≤ window.trailing := by
  simp only [fits, Bool.and_eq_true, decide_eq_true_eq, and_assoc]

/-- A window that the XOR's own one fits in spans the XOR too. -/
theorem spans_of_fits {prev : Window} {xor : BitVec fmt.width}
    (hfits : fits fmt prev (windowOf xor) = true) : Spans prev xor := by
  obtain ⟨-, hlead, htrail⟩ := (fits_iff prev _).mp hfits
  have hspans := spans_windowOf xor
  constructor
  · intro i hi
    exact hspans.1 i (by omega)
  · intro i hi
    exact hspans.2 i (by omega)

theorem shiftLeft_meaningful {window : Window} (hopen : Open fmt window)
    {xor : BitVec fmt.width} (hspans : Spans window xor) :
    ((lowBits (meaningful fmt window) ((xor >>> window.trailing).setWidth 64)).setWidth
      fmt.width) <<< window.trailing = xor := by
  have hwidth := fmt.width_le
  have hopen' : window.leading + window.trailing < fmt.width := hopen
  ext i hi
  simp only [← BitVec.getLsbD_eq_getElem, BitVec.getLsbD_shiftLeft, BitVec.getLsbD_setWidth,
    getLsbD_lowBits, BitVec.getLsbD_ushiftRight, meaningful]
  by_cases hlow : i < window.trailing
  · simp only [hlow, hspans.1 i hlow, decide_true, Bool.not_true, Bool.and_false,
      Bool.false_and]
  · have hback : window.trailing + (i - window.trailing) = i := by omega
    have hin : i - window.trailing < fmt.width := by omega
    have h64 : i - window.trailing < 64 := by omega
    simp only [hlow, hi, hback, hin, h64, decide_true, decide_false, Bool.not_false,
      Bool.true_and]
    by_cases hhigh : fmt.width - window.leading ≤ i
    · rw [hspans.2 i hhigh, Bool.and_false]
    · have hinside : i - window.trailing < fmt.width - window.leading - window.trailing := by
        omega
      simp only [hinside, decide_true, Bool.true_and]

/-! ## The code of one value -/

/-- The bits written for a value, given its predecessor and the encoder's window. -/
def codeOf (prevBits : BitVec fmt.width) (window : Window) (bits : BitVec fmt.width) :
    List Bool :=
  let xor := prevBits ^^^ bits
  let own := windowOf xor
  if xor = 0#(fmt.width) then [false]
  else if fits fmt window own then
    [true, false] ++ bitsOf (meaningful fmt window) ((xor >>> window.trailing).setWidth 64)
  else
    [true, true] ++ bitsOf fmt.fieldBits (BitVec.ofNat 64 own.leading) ++
      bitsOf fmt.fieldBits (BitVec.ofNat 64 (meaningful fmt own)) ++
      bitsOf (meaningful fmt own) ((xor >>> own.trailing).setWidth 64)

def nextWindow (prevBits : BitVec fmt.width) (window : Window) (bits : BitVec fmt.width) :
    Window :=
  let xor := prevBits ^^^ bits
  if xor = 0#(fmt.width) then window
  else if fits fmt window (windowOf xor) then window else windowOf xor

theorem writePattern_spec {w : ℕ} {writer : BitWriter} (hvalid : writer.Valid) (v : BitVec w)
    (n : ℕ) : (writePattern writer v n).Valid ∧
      (writePattern writer v n).bits = writer.bits ++ bitsOf n (v.setWidth 64) :=
  BitWriter.writeBits_spec hvalid _ n

theorem writeInWindow_spec {writer : BitWriter} (hvalid : writer.Valid)
    (xor : BitVec fmt.width) (prev : Window) :
    (writeInWindow writer xor prev).Valid ∧
      (writeInWindow writer xor prev).bits = writer.bits ++ [false] ++
        bitsOf (meaningful fmt prev) ((xor >>> prev.trailing).setWidth 64) := by
  have hflag := BitWriter.writeBit_spec hvalid false
  have hbits := writePattern_spec hflag.1 (xor >>> prev.trailing) (meaningful fmt prev)
  exact ⟨hbits.1, hbits.2.trans (by rw [hflag.2])⟩

theorem writeNewWindow_spec {writer : BitWriter} (hvalid : writer.Valid)
    (xor : BitVec fmt.width) (window : Window) :
    (writeNewWindow writer xor window).Valid ∧
      (writeNewWindow writer xor window).bits = writer.bits ++ [true] ++
        bitsOf fmt.fieldBits (BitVec.ofNat 64 window.leading) ++
        bitsOf fmt.fieldBits (BitVec.ofNat 64 (meaningful fmt window)) ++
        bitsOf (meaningful fmt window) ((xor >>> window.trailing).setWidth 64) := by
  have hflag := BitWriter.writeBit_spec hvalid true
  have hlead := BitWriter.writeBits_spec hflag.1 (BitVec.ofNat 64 window.leading) fmt.fieldBits
  have hlen := BitWriter.writeBits_spec hlead.1
    (BitVec.ofNat 64 (meaningful fmt window)) fmt.fieldBits
  have hbits := writePattern_spec hlen.1 (xor >>> window.trailing) (meaningful fmt window)
  exact ⟨hbits.1, hbits.2.trans (by rw [hlen.2, hlead.2, hflag.2])⟩

/-- A value's step appends its code and moves to its window. -/
theorem encodeValue_spec {self : EncodeState fmt} (hvalid : self.writer.Valid)
    (bits : BitVec fmt.width) :
    (encodeValue self bits).writer.Valid ∧
      (encodeValue self bits).writer.bits =
        self.writer.bits ++ codeOf self.prevBits self.window bits ∧
      (encodeValue self bits).prevBits = bits ∧
      (encodeValue self bits).window = nextWindow self.prevBits self.window bits := by
  by_cases hsame : self.prevBits ^^^ bits = 0#(fmt.width)
  · have hflag := BitWriter.writeBit_spec hvalid false
    simp only [encodeValue, codeOf, nextWindow, if_pos hsame]
    exact ⟨hflag.1, hflag.2, trivial, trivial⟩
  · have hflag := BitWriter.writeBit_spec hvalid true
    by_cases hfits : fits fmt self.window (windowOf (self.prevBits ^^^ bits)) = true
    · have hbody := writeInWindow_spec hflag.1 (self.prevBits ^^^ bits) self.window
      simp only [encodeValue, codeOf, nextWindow, if_neg hsame, if_pos hfits]
      refine ⟨hbody.1, ?_, trivial, trivial⟩
      rw [hbody.2, hflag.2]
      simp only [List.append_assoc, List.cons_append, List.nil_append]
    · have hbody := writeNewWindow_spec hflag.1 (self.prevBits ^^^ bits)
        (windowOf (self.prevBits ^^^ bits))
      simp only [encodeValue, codeOf, nextWindow, if_neg hsame, if_neg hfits]
      refine ⟨hbody.1, ?_, trivial, trivial⟩
      rw [hbody.2, hflag.2]
      simp only [List.append_assoc, List.cons_append, List.nil_append]

/-! ## Reading a code back -/

/-- The decoder's window is the encoder's once there is one; before, the encoder is at its
sentinel and the decoder at zero. -/
def WindowsAgree (fmt : Format) (enc dec : Window) : Prop :=
  Open fmt enc ∧ dec = enc ∨ enc = sentinel fmt ∧ dec = ⟨0, 0⟩

theorem windowsAgree_sentinel (fmt : Format) : WindowsAgree fmt (sentinel fmt) ⟨0, 0⟩ :=
  Or.inr ⟨rfl, rfl⟩

theorem windowsAgree_open {window : Window} (h : Open fmt window) :
    WindowsAgree fmt window window :=
  Or.inl ⟨h, rfl⟩

theorem WindowsAgree.of_fits {enc dec own : Window} (h : WindowsAgree fmt enc dec)
    (hfits : fits fmt enc own = true) : Open fmt enc ∧ dec = enc := by
  cases h with
  | inl hopen => exact hopen
  | inr hnone =>
      have hlead : enc.leading = fmt.width := congrArg Window.leading hnone.1
      exact absurd hlead ((fits_iff enc own).mp hfits).1

/-- XORing the restored difference into the predecessor gives the value. -/
theorem applyXor_spec {self : DecodeState fmt} {window : Window} (reader : BitReader)
    {bits : BitVec fmt.width} (hopen : Open fmt window)
    (hspans : Spans window (self.prevBits ^^^ bits)) :
    applyXor self reader (lowBits (meaningful fmt window)
        (((self.prevBits ^^^ bits) >>> window.trailing).setWidth 64)) window =
      some { reader := reader, prevBits := bits, window := window } := by
  have hlt : window.trailing < fmt.width := by
    have hopen' : window.leading + window.trailing < fmt.width := hopen
    omega
  rw [applyXor, checkedShl_of_lt _ hlt, shiftLeft_meaningful hopen hspans]
  show some _ = some _
  rw [← BitVec.xor_assoc, BitVec.xor_self, BitVec.zero_xor]

theorem meaningful_pos {window : Window} (h : Open fmt window) : 0 < meaningful fmt window := by
  have hopen : window.leading + window.trailing < fmt.width := h
  show 0 < fmt.width - window.leading - window.trailing
  omega

theorem meaningful_le (window : Window) : meaningful fmt window ≤ fmt.width :=
  le_trans (Nat.sub_le _ _) (Nat.sub_le _ _)

theorem decodeInWindow_spec {self : DecodeState fmt} {reader : BitReader} {rest : List Bool}
    {bits : BitVec fmt.width} (hreader : reader.Valid) (hopen : Open fmt self.window)
    (hspans : Spans self.window (self.prevBits ^^^ bits))
    (hbits : reader.remaining = bitsOf (meaningful fmt self.window)
      (((self.prevBits ^^^ bits) >>> self.window.trailing).setWidth 64) ++ rest) :
    ∃ r, decodeInWindow self reader =
        some { reader := r, prevBits := bits, window := self.window } ∧
      r.Valid ∧ r.remaining = rest := by
  have hopen' : self.window.leading + self.window.trailing < fmt.width := hopen
  have hle : meaningful fmt self.window ≤ 64 := (meaningful_le _).trans fmt.width_le
  obtain ⟨r, hrun, hr, hrest⟩ := BitReader.readBits_spec hreader hle hbits
  refine ⟨r, ?_, hr, hrest⟩
  have hsub : checkedSub (fmt.width - self.window.leading) self.window.trailing =
      some (meaningful fmt self.window) := checkedSub_of_le (by omega)
  rw [decodeInWindow, checkedSub_of_le (by omega)]
  simp only [bind, Option.bind, hsub, hrun]
  exact applyXor_spec r hopen hspans

/-- A header field below the width survives its six or five bits. -/
theorem toNat_field (fmt : Format) {n : ℕ} (h : n < fmt.width) :
    ((lowBits fmt.fieldBits (BitVec.ofNat 64 n)).setWidth 8).toNat = n := by
  have hbits : fmt.fieldBits ≤ 64 := by
    have hlt : fmt.fieldBits < 2 ^ fmt.fieldBits := Nat.lt_two_pow_self
    have hle := fmt.width_le
    rw [fmt.width_eq] at hle
    omega
  have hwidth := fmt.width_le
  have hfit : n < 2 ^ fmt.fieldBits := fmt.width_eq ▸ h
  rw [BitVec.toNat_setWidth, lowBits_ofNat hbits hfit]
  omega

/-- The full width is written as 0, since its field is one bit short. -/
theorem bitsOf_width (fmt : Format) :
    bitsOf fmt.fieldBits (BitVec.ofNat 64 fmt.width) =
      bitsOf fmt.fieldBits (BitVec.ofNat 64 0) := by
  apply bitsOf_congr
  intro i hi
  rw [BitVec.getLsbD_ofNat, BitVec.getLsbD_ofNat, fmt.width_eq, Nat.testBit_two_pow,
    Nat.zero_testBit]
  simp only [show ¬ fmt.fieldBits = i by omega, decide_false]

theorem lengthOfField_spec {n : ℕ} (hpos : 0 < n) (hle : n ≤ fmt.width) :
    ∃ field : BitVec 64, bitsOf fmt.fieldBits (BitVec.ofNat 64 n) =
        bitsOf fmt.fieldBits field ∧
      lengthOfField fmt (lowBits fmt.fieldBits field) = n := by
  by_cases hfull : n = fmt.width
  · subst hfull
    refine ⟨BitVec.ofNat 64 0, bitsOf_width fmt, ?_⟩
    simp only [lengthOfField, toNat_field fmt hpos, if_true]
  · refine ⟨BitVec.ofNat 64 n, rfl, ?_⟩
    simp only [lengthOfField, toNat_field fmt (show n < fmt.width by omega),
      if_neg (show ¬ n = 0 by omega)]

theorem decodeNewWindow_spec {self : DecodeState fmt} {reader : BitReader} {rest : List Bool}
    {bits : BitVec fmt.width} {window : Window} (hreader : reader.Valid)
    (hopen : Open fmt window) (hspans : Spans window (self.prevBits ^^^ bits))
    (hbits : reader.remaining = bitsOf fmt.fieldBits (BitVec.ofNat 64 window.leading) ++
      (bitsOf fmt.fieldBits (BitVec.ofNat 64 (meaningful fmt window)) ++
        (bitsOf (meaningful fmt window)
          (((self.prevBits ^^^ bits) >>> window.trailing).setWidth 64) ++ rest))) :
    ∃ r, decodeNewWindow self reader =
        some { reader := r, prevBits := bits, window := window } ∧
      r.Valid ∧ r.remaining = rest := by
  have hopen' : window.leading + window.trailing < fmt.width := hopen
  have hfield : fmt.fieldBits ≤ 64 := by
    have hlt : fmt.fieldBits < 2 ^ fmt.fieldBits := Nat.lt_two_pow_self
    have hle := fmt.width_le
    rw [fmt.width_eq] at hle
    omega
  obtain ⟨field, hsame, hlength⟩ :=
    lengthOfField_spec (meaningful_pos hopen) (meaningful_le window)
  rw [hsame] at hbits
  obtain ⟨r₁, hlead, hr₁, hrest₁⟩ := BitReader.readBits_spec hreader hfield hbits
  obtain ⟨r₂, hlen, hr₂, hrest₂⟩ := BitReader.readBits_spec hr₁ hfield hrest₁
  have hle : meaningful fmt window ≤ 64 := (meaningful_le _).trans fmt.width_le
  obtain ⟨r₃, hxor, hr₃, hrest₃⟩ := BitReader.readBits_spec hr₂ hle hrest₂
  refine ⟨r₃, ?_, hr₃, hrest₃⟩
  have hsub : checkedSub (fmt.width - window.leading) (meaningful fmt window) =
      some window.trailing := by
    have hle' : meaningful fmt window ≤ fmt.width - window.leading := Nat.sub_le _ _
    rw [checkedSub_of_le hle', meaningful]
    congr 1
    omega
  rw [decodeNewWindow, hlead]
  simp only [bind, Option.bind, hlen, hlength,
    toNat_field fmt (show window.leading < fmt.width by omega),
    checkedSub_of_le (show window.leading ≤ fmt.width by omega), hsub, hxor]
  exact applyXor_spec r₃ hopen hspans

/-- After its `1` bit a value is read by one of the two window branches. -/
theorem decodeValue_of_bits {dec : DecodeState fmt} {inNew : Bool} {rest : List Bool}
    (hreader : dec.reader.Valid) (hbits : dec.reader.remaining = true :: inNew :: rest) :
    ∃ r, r.Valid ∧ r.remaining = rest ∧
      decodeValue dec = if inNew then decodeNewWindow dec r else decodeInWindow dec r := by
  obtain ⟨r₁, hbit₁, hr₁, hrest₁⟩ := BitReader.readBit_spec hreader hbits
  obtain ⟨r₂, hbit₂, hr₂, hrest₂⟩ := BitReader.readBit_spec hr₁ hrest₁
  refine ⟨r₂, hr₂, hrest₂, ?_⟩
  rw [decodeValue, hbit₁]
  show decodeChanged dec r₁ = _
  rw [decodeChanged, hbit₂]
  rfl

/-- In front of a value's code the decoder, agreeing with the encoder, reads the value and
agrees again. -/
theorem decodeValue_spec {window : Window} {dec : DecodeState fmt} {bits : BitVec fmt.width}
    {rest : List Bool} (hreader : dec.reader.Valid) (hagree : WindowsAgree fmt window dec.window)
    (hbits : dec.reader.remaining = codeOf dec.prevBits window bits ++ rest) :
    ∃ next, decodeValue dec = some next ∧ next.reader.Valid ∧ next.reader.remaining = rest ∧
      next.prevBits = bits ∧
      WindowsAgree fmt (nextWindow dec.prevBits window bits) next.window := by
  by_cases hsame : dec.prevBits ^^^ bits = 0#(fmt.width)
  · simp only [codeOf, if_pos hsame, List.cons_append, List.nil_append] at hbits
    obtain ⟨r, hbit, hr, hrest⟩ := BitReader.readBit_spec hreader hbits
    refine ⟨{ dec with reader := r }, ?_, hr, hrest, BitVec.xor_eq_zero_iff.mp hsame, ?_⟩
    · rw [decodeValue, hbit]
      rfl
    · simp only [nextWindow, if_pos hsame]
      exact hagree
  · by_cases hfits : fits fmt window (windowOf (dec.prevBits ^^^ bits)) = true
    · obtain ⟨hopen, hwindow⟩ := hagree.of_fits hfits
      subst hwindow
      simp only [codeOf, if_neg hsame, if_pos hfits, List.cons_append, List.nil_append] at hbits
      obtain ⟨r₁, hr₁, hrest₁, hstep⟩ := decodeValue_of_bits hreader hbits
      obtain ⟨r, hrun, hr, hrest⟩ :=
        decodeInWindow_spec hr₁ hopen (spans_of_fits hfits) hrest₁
      refine ⟨_, hstep.trans hrun, hr, hrest, rfl, ?_⟩
      simp only [nextWindow, if_neg hsame, if_pos hfits]
      exact windowsAgree_open hopen
    · have hopen := open_windowOf hsame
      simp only [codeOf, if_neg hsame, if_neg hfits, List.cons_append, List.nil_append,
        List.append_assoc] at hbits
      obtain ⟨r₁, hr₁, hrest₁, hstep⟩ := decodeValue_of_bits hreader hbits
      obtain ⟨r, hrun, hr, hrest⟩ :=
        decodeNewWindow_spec hr₁ hopen (spans_windowOf (dec.prevBits ^^^ bits)) hrest₁
      refine ⟨_, hstep.trans hrun, hr, hrest, rfl, ?_⟩
      simp only [nextWindow, if_neg hsame, if_neg hfits]
      exact windowsAgree_open hopen

/-! ## Whole columns -/

def codesOf (prevBits : BitVec fmt.width) (window : Window) :
    List (BitVec fmt.width) → List Bool
  | [] => []
  | bits :: rest =>
      codeOf prevBits window bits ++ codesOf bits (nextWindow prevBits window bits) rest

theorem foldl_encodeValue (values : List (BitVec fmt.width)) (self : EncodeState fmt)
    (hvalid : self.writer.Valid) :
    (values.foldl encodeValue self).writer.Valid ∧
      (values.foldl encodeValue self).writer.bits =
        self.writer.bits ++ codesOf self.prevBits self.window values := by
  induction values generalizing self with
  | nil => exact ⟨hvalid, (List.append_nil _).symm⟩
  | cons bits rest ih =>
      obtain ⟨hnext, hbits, hprev, hwindow⟩ := encodeValue_spec hvalid bits
      have hrun := ih (encodeValue self bits) hnext
      rw [List.foldl_cons, codesOf]
      refine ⟨hrun.1, ?_⟩
      rw [hrun.2, hbits, hprev, hwindow, List.append_assoc]

/-- Every state of the encoder's run has a valid writer. -/
theorem valid_of_mem_scanl (values : List (BitVec fmt.width)) (self : EncodeState fmt)
    (hvalid : self.writer.Valid) :
    ∀ enc ∈ values.scanl encodeValue self, enc.writer.Valid := by
  induction values generalizing self with
  | nil => simpa using hvalid
  | cons bits rest ih =>
      intro enc henc
      rw [List.scanl_cons, List.mem_cons] at henc
      cases henc with
      | inl hfirst => rwa [hfirst]
      | inr hlater => exact ih (encodeValue self bits) (encodeValue_spec hvalid bits).1 enc hlater

/-- The decoder holds the encoder's predecessor and agrees on the window. -/
def Agree (enc : EncodeState fmt) (dec : DecodeState fmt) : Prop :=
  enc.prevBits = dec.prevBits ∧ WindowsAgree fmt enc.window dec.window

/-- In front of the remaining codes the decoder follows the encoder state by state. -/
theorem decodeRest_spec (values : List (BitVec fmt.width)) (enc : EncodeState fmt)
    {dec : DecodeState fmt} {rest : List Bool} (hwriter : enc.writer.Valid)
    (hreader : dec.reader.Valid) (hagree : Agree enc dec)
    (hbits : dec.reader.remaining = codesOf enc.prevBits enc.window values ++ rest) :
    ∃ states, decodeRest values.length dec = some states ∧
      states.map DecodeState.prevBits = values ∧
      List.Forall₂ Agree (values.scanl encodeValue enc) (dec :: states) := by
  induction values generalizing enc dec with
  | nil => exact ⟨[], rfl, rfl, List.Forall₂.cons hagree List.Forall₂.nil⟩
  | cons bits values ih =>
      obtain ⟨hprev, hwindow⟩ := hagree
      rw [codesOf, List.append_assoc, hprev] at hbits
      obtain ⟨next, hstep, hnext, hrest, hvalue, hwindow'⟩ :=
        decodeValue_spec hreader hwindow hbits
      obtain ⟨hwriter', -, hprev', hmoved⟩ := encodeValue_spec hwriter bits
      have hagree' : Agree (encodeValue enc bits) next := by
        refine ⟨hprev'.trans hvalue.symm, ?_⟩
        rw [hmoved, hprev]
        exact hwindow'
      have hcodes : next.reader.remaining = codesOf (encodeValue enc bits).prevBits
          (encodeValue enc bits).window values ++ rest := by
        rw [hrest, hprev', hmoved, hprev]
      obtain ⟨states, hrun, hvalues, hall⟩ := ih (encodeValue enc bits) hwriter' hnext hagree' hcodes
      refine ⟨next :: states, ?_, ?_, ?_⟩
      · simp only [List.length_cons, decodeRest, hstep, bind, Option.bind, hrun]
        rfl
      · rw [List.map_cons, hvalue, hvalues]
      · rw [List.scanl_cons]
        exact List.Forall₂.cons ⟨hprev, hwindow⟩ hall

theorem decodeFirst_spec {data : List Byte} {first : BitVec fmt.width} {rest : List Bool}
    (hdata : streamOf data = bitsOf fmt.width (first.setWidth 64) ++ rest) :
    ∃ dec, decodeFirst fmt data = some dec ∧ dec.reader.Valid ∧
      dec.reader.remaining = rest ∧ dec.prevBits = first ∧ dec.window = ⟨0, 0⟩ := by
  obtain ⟨r₀, hnew, hr₀, hstream⟩ := BitReader.new_spec data
  obtain ⟨r, hread, hr, hrest⟩ :=
    BitReader.readBits_spec hr₀ fmt.width_le (hstream.trans hdata)
  have hfirst : (lowBits fmt.width (first.setWidth 64)).setWidth fmt.width = first := by
    ext i hi
    have hwidth := fmt.width_le
    simp only [← BitVec.getLsbD_eq_getElem, BitVec.getLsbD_setWidth, getLsbD_lowBits, hi,
      show i < 64 by omega, decide_true, Bool.true_and]
  refine ⟨{ reader := r, prevBits := first, window := ⟨0, 0⟩ }, ?_, hr, hrest, rfl, rfl⟩
  rw [decodeFirst, hnew]
  simp only [bind, Option.bind, hread, hfirst]
  rfl

theorem decodeStates_encodePatterns (values : List (BitVec fmt.width)) :
    ∃ states, decodeStates fmt (encodePatterns fmt values) values.length = some states ∧
      states.map DecodeState.prevBits = values ∧
      List.Forall₂ Agree (encodeStates fmt values) states := by
  cases values with
  | nil => exact ⟨[], rfl, rfl, List.Forall₂.nil⟩
  | cons first rest =>
      obtain ⟨hwriter, hfirst⟩ := writePattern_spec BitWriter.valid_new first fmt.width
      obtain ⟨hdone, hcodes⟩ := foldl_encodeValue rest (encodeFirst first) hwriter
      obtain ⟨pad, hpad⟩ := BitWriter.streamOf_finish hdone
      have hdata : streamOf (encodePatterns fmt (first :: rest)) =
          bitsOf fmt.width (first.setWidth 64) ++
            (codesOf first (sentinel fmt) rest ++ pad) := by
        rw [encodePatterns, hpad, hcodes, List.append_assoc]
        show (writePattern BitWriter.new first fmt.width).bits ++ _ = _
        rw [hfirst, BitWriter.bits_new, List.nil_append]
        rfl
      obtain ⟨dec, hdec, hreader, hremaining, hprev, hwindow⟩ := decodeFirst_spec hdata
      have hagree : Agree (encodeFirst first) dec := by
        refine ⟨hprev.symm, ?_⟩
        rw [hwindow]
        exact windowsAgree_sentinel fmt
      obtain ⟨states, hrun, hvalues, hall⟩ :=
        decodeRest_spec rest (encodeFirst first) hwriter hreader hagree hremaining
      refine ⟨dec :: states, ?_, ?_, hall⟩
      · simp only [List.length_cons, decodeStates, hdec, bind, Option.bind, hrun]
        rfl
      · rw [List.map_cons, hprev, hvalues]

/-- The length field of a new window is 0 exactly when every bit is meaningful. -/
theorem lengthField_zero_iff {n : ℕ} (hpos : 0 < n) (hle : n ≤ fmt.width) :
    bitsOf fmt.fieldBits (BitVec.ofNat 64 n) = List.replicate fmt.fieldBits false ↔
      n = fmt.width := by
  rw [← bitsOf_zero_eq_replicate 64]
  constructor
  · intro hfield
    by_contra hne
    have hlow : lowBits fmt.fieldBits (BitVec.ofNat 64 n) = lowBits fmt.fieldBits 0#64 := by
      ext i hi
      rw [← BitVec.getLsbD_eq_getElem, ← BitVec.getLsbD_eq_getElem, getLsbD_lowBits,
        getLsbD_lowBits]
      by_cases hin : i < fmt.fieldBits
      · rw [getLsbD_of_bitsOf_eq hfield hin]
      · simp only [hin, decide_false, Bool.false_and]
    have hback := toNat_field fmt (show n < fmt.width by omega)
    rw [hlow] at hback
    have hzero := toNat_field fmt (width_pos fmt)
    omega
  · intro hfull
    rw [hfull]
    exact bitsOf_width fmt

/-- What encoder and decoder keep in common over a whole column: the decoder stays in range and
hands out every pattern, its window follows the encoder's, and a window opened by any next
value has a length field that is 0 just for the full width. -/
structure Lossless (fmt : Format) (values : List (BitVec fmt.width)) : Prop where
  decoded : decodePatterns fmt (encodePatterns fmt values) values.length = some values
  windows : ∃ states, decodeStates fmt (encodePatterns fmt values) values.length = some states ∧
    List.Forall₂ (fun enc dec => WindowsAgree fmt enc.window dec.window)
      (encodeStates fmt values) states
  lengthField : ∀ enc ∈ encodeStates fmt values, ∀ bits, enc.prevBits ≠ bits →
    fits fmt enc.window (windowOf (enc.prevBits ^^^ bits)) = false →
    ∃ leading field payload,
      (encodeValue enc bits).writer.bits =
        enc.writer.bits ++ [true, true] ++ leading ++ field ++ payload ∧
      leading.length = fmt.fieldBits ∧ field.length = fmt.fieldBits ∧
      payload.length = meaningful fmt (windowOf (enc.prevBits ^^^ bits)) ∧
      (field = List.replicate fmt.fieldBits false ↔ payload.length = fmt.width)

theorem valid_of_mem_encodeStates {values : List (BitVec fmt.width)} {enc : EncodeState fmt}
    (henc : enc ∈ encodeStates fmt values) : enc.writer.Valid := by
  cases values with
  | nil => exact absurd henc (List.not_mem_nil)
  | cons first rest =>
      exact valid_of_mem_scanl rest (encodeFirst first)
        (writePattern_spec BitWriter.valid_new first fmt.width).1 enc henc

theorem lossless (fmt : Format) (values : List (BitVec fmt.width)) : Lossless fmt values := by
  obtain ⟨states, hrun, hvalues, hall⟩ := decodeStates_encodePatterns values
  refine ⟨?_, ⟨states, hrun, hall.imp fun _ _ h => h.2⟩, ?_⟩
  · rw [decodePatterns, hrun, Option.map_some, hvalues]
  · intro enc henc bits hne hfits
    have hxor : ¬ enc.prevBits ^^^ bits = 0#(fmt.width) := fun h =>
      hne (BitVec.xor_eq_zero_iff.mp h)
    have hcode := (encodeValue_spec (valid_of_mem_encodeStates henc) bits).2.1
    simp only [codeOf, if_neg hxor, hfits, Bool.false_eq_true, if_false] at hcode
    generalize hown : windowOf (enc.prevBits ^^^ bits) = own at hcode ⊢
    have hopen : Open fmt own := hown ▸ open_windowOf hxor
    refine ⟨bitsOf fmt.fieldBits (BitVec.ofNat 64 own.leading),
      bitsOf fmt.fieldBits (BitVec.ofNat 64 (meaningful fmt own)),
      bitsOf (meaningful fmt own) (((enc.prevBits ^^^ bits) >>> own.trailing).setWidth 64),
      hcode.trans ?_, length_bitsOf _ _, length_bitsOf _ _, length_bitsOf _ _, ?_⟩
    · simp only [List.append_assoc]
    · rw [length_bitsOf]
      exact lengthField_zero_iff (meaningful_pos hopen) (meaningful_le own)

/-- Both float codecs are lossless on every list of bit patterns. -/
theorem encodeFloats_lossless (values : List (BitVec 64)) (valuesF32 : List (BitVec 32)) :
    decodeFloats (encodeFloats values) values.length = some values ∧
      decodeFloatsF32 (encodeFloatsF32 valuesF32) valuesF32.length = some valuesF32 ∧
      Lossless f64 values ∧ Lossless f32 valuesF32 :=
  ⟨(lossless f64 values).decoded, (lossless f32 valuesF32).decoded,
    lossless f64 values, lossless f32 valuesF32⟩

/-- After a column's first value the encoder is at its sentinel, the decoder at zero. -/
theorem windows_differ_after_first :
    (decodeStates f64 (encodeFloats [0#64]) 1).map (List.map DecodeState.window) ≠
      some ((encodeStates f64 [0#64]).map EncodeState.window) := by
  decide

end DeltaX.Codec.GorillaFloats
