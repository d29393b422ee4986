import DeltaX.Codec.ColumnBlobs
/-!
# Column blobs read back

The tag that a writer picks names a reader of what it wrote, at the width and for the type
that it wrote.  So a column that fits the fields of its blob comes back as the renderings of
its values, with NULL where it was.
-/

namespace DeltaX.Codec.ColumnBlobs

open DeltaX.Column Column.Timeparse Column.TimestampRoundTrip Support.ByteBits Support.Utf8
open Support.Chunks Support.ByteSlices NumericScaled
open BooleanBitmap (countNonNull countNonNull_extractNulls reinsertNulls_map extractNulls_map)

variable {lz4 : Lz4Flex} {out : TypeOut} {dt : Text} {force : Bool}

/-! ## The frame of a blob -/

theorem toBytes_ofBytes (bytes : Bytes) : toBytes (ofBytes bytes) = bytes :=
  CompressedColumn.map_toBitVec_ofBitVec bytes

theorem blob_ne_nil (typeTag : CompressionType) (rows : ℕ) (nullBitmap : Bytes)
    (data : List UInt8) : blob typeTag rows nullBitmap data ≠ [] :=
  List.cons_ne_nil _ _

theorem fromBytes_blob {α : Type} {values : List (Option α)} (hrows : values.length < 2 ^ 32)
    (typeTag : CompressionType) (data : List UInt8) :
    CompressedColumn.fromBytes (blob typeTag values.length (extractNulls values).2 data) =
      some { typeTag, rowCount := values.length, nullBitmap := (extractNulls values).2, data } := by
  rw [blob, Nat.mod_eq_of_lt hrows]
  exact CompressedColumn.fromBytes_toBytes ⟨hrows, length_extractNulls_snd values⟩

/-- A payload that is read as the renderings of its values gives the rows. -/
theorem decompress_blob {α : Type} {values : List (Option α)} (hrows : values.length < 2 ^ 32)
    {typeTag : CompressionType} {data : List UInt8} {render : α → Text}
    (hread : decodeStrings lz4 out dt typeTag data values.reduceOption.length =
      some (values.reduceOption.map render)) :
    decompressColumnValues lz4 out
        (blob typeTag values.length (extractNulls values).2 data) dt =
      some (values.map (Option.map render)) := by
  rw [decompressColumnValues, if_neg (blob_ne_nil _ _ _ _), fromBytes_blob hrows]
  simp only [bind, Option.bind, countNonNull_extractNulls, hread]
  exact reinsertNulls_map render values

theorem decompressBytes_blob {values : List (Option (List UInt8))}
    (hrows : values.length < 2 ^ 32) {typeTag : CompressionType} {data : List UInt8}
    (hread : decodeByteValues lz4 typeTag data values.reduceOption.length =
      some values.reduceOption) :
    decompressColumnByteValues lz4 (blob typeTag values.length (extractNulls values).2 data) =
      some values := by
  rw [decompressColumnByteValues, if_neg (blob_ne_nil _ _ _ _), fromBytes_blob hrows]
  simp only [bind, Option.bind, countNonNull_extractNulls, hread]
  exact reinsertNulls_extractNulls values

/-! ## Integers -/

theorem isIntegerTag_of_decoded {w : ℕ} {aligned : List ℕ} {typeTag : CompressionType}
    {data : Bytes} {count : ℕ} {values : List (BitVec w)}
    (h : Integer.decodeTagged w aligned typeTag data count = some values) :
    isIntegerTag typeTag = true := by
  cases typeTag <;> first | rfl | cases h

theorem decodeI64_ofBytes (typeTag : CompressionType) (data : Bytes) (count : ℕ) :
    decodeI64 typeTag (ofBytes data) count =
      Integer.decodeTagged 64 Bitpacked.alignedU64 typeTag data count := by
  unfold decodeI64
  rw [toBytes_ofBytes]
  cases typeTag <;> rfl

theorem decodeI32_ofBytes (typeTag : CompressionType) (data : Bytes) (count : ℕ) :
    decodeI32 typeTag (ofBytes data) count =
      Integer.decodeTagged 32 Bitpacked.alignedU32 typeTag data count := by
  unfold decodeI32
  rw [toBytes_ofBytes]
  cases typeTag <;> rfl

/-- The tag of a 64-bit column names a reader of its payload. -/
theorem bestEncodingI64_spec (values : List (BitVec 64)) :
    ∃ typeTag data, Integer.bestEncodingI64 values = some (typeTag, data) ∧
      isIntegerTag typeTag = true ∧
      decodeI64 typeTag (ofBytes data) values.length = some values := by
  obtain ⟨typeTag, data, hbest, hchosen⟩ := Integer.bestEncoding_chosen (by decide) (by decide)
    (by decide) Bitpacked.wholeBytes_alignedU64 values
  refine ⟨typeTag, data, hbest, isIntegerTag_of_decoded hchosen.decoded, ?_⟩
  rw [decodeI64_ofBytes]
  exact hchosen.decoded

theorem bestEncodingI32_spec (values : List (BitVec 32)) :
    ∃ typeTag data, Integer.bestEncodingI32 values = some (typeTag, data) ∧
      isIntegerTag typeTag = true ∧
      decodeI32 typeTag (ofBytes data) values.length = some values := by
  obtain ⟨typeTag, data, hbest, hchosen⟩ := Integer.bestEncoding_chosen (by decide) (by decide)
    (by decide) Bitpacked.wholeBytes_alignedU32 values
  refine ⟨typeTag, data, hbest, isIntegerTag_of_decoded hchosen.decoded, ?_⟩
  rw [decodeI32_ofBytes]
  exact hchosen.decoded

/-! ## Strings -/

/-- The strings of a column fit the fields of a dictionary, or of a blocked column. -/
structure Storable (lz4 : Lz4Flex) (refs : List (List UInt8)) : Prop where
  short : ∀ v ∈ refs, v.length < 2 ^ 32
  dictionary : Dictionary.shouldUseDictionary refs = true → Dictionary.entriesSize refs < 2 ^ 32 ∧
    (lz4.compressPrependSize (Dictionary.entriesBlob
      (Dictionary.sortEntries (Dictionary.dictEntries refs)))).length < 2 ^ 32
  blocks : Dictionary.shouldUseDictionary refs = false →
    divCeil refs.length defaultBlockSize ≤ 65535 ∧
      (Lz4.encodeBlocked lz4 refs defaultBlockSize).length < 2 ^ 32 ∧
      ∀ c ∈ chunks defaultBlockSize refs, (Lz4.pack c).length < 2 ^ 32

/-- What a text payload is read as, by bytes and by texts. -/
structure ReadsStrings (lz4 : Lz4Flex) (typeTag : CompressionType) (data : List UInt8)
    (refs : List (List UInt8)) : Prop where
  tag : typeTag = .dictionary ∨ typeTag = .dictionaryLz4 ∨ typeTag = .lz4Blocked
  bytes : decodeByteValues lz4 typeTag data refs.length = some refs
  texts : ∀ (out : TypeOut) (dt : Text) (texts : List Text), refs = texts.map utf8Bytes →
    decodeByTag lz4 out dt typeTag data refs.length = some texts

theorem rangeBytes_selectiveRead {values : List (List UInt8)} {blockSize : ℕ} {buf : List UInt8}
    {ranges : List (ℕ × ℕ)} (h : Lz4.SelectiveRead values blockSize none buf ranges) :
    rangeBytes (buf, ranges) = some values := by
  have hall : List.Forall₂ (fun r v => slice buf r.1 (r.1 + r.2) = some v) ranges values := by
    rw [List.forall₂_iff_get]
    refine ⟨h.rows, fun i hi hi' => ?_⟩
    obtain ⟨r, hr, hslice⟩ := h.selected i values[i] (List.getElem?_eq_getElem hi')
      (fun sel hsel => by cases hsel)
    rw [List.getElem?_eq_getElem hi] at hr
    rw [List.get_eq_getElem, List.get_eq_getElem, Option.some.inj hr]
    exact hslice
  rw [rangeBytes]
  clear h
  dsimp only
  induction hall with
  | nil => rfl
  | cons hhead _ ih =>
      rw [List.mapM_cons, hhead, ih]
      rfl

theorem readsStrings_dictionary {refs : List (List UInt8)}
    (haccepted : Dictionary.shouldUseDictionary refs = true)
    (hshort : ∀ v ∈ refs, v.length < 2 ^ 32) :
    ReadsStrings lz4 .dictionary (Dictionary.encode refs) refs := by
  have hread := Dictionary.plainRead_emit (Dictionary.covers_dictEntries haccepted hshort)
    fun e he => (Dictionary.mem_dictEntries refs e).mp he
  rw [← Dictionary.encode_eq_emit haccepted hshort] at hread
  exact ⟨.inl rfl, hread.byteSlices, fun _ _ texts htexts => hread.text texts htexts⟩

theorem readsStrings_dictionaryLz4 (hlz4 : lz4.Inverts) {refs : List (List UInt8)}
    (haccepted : Dictionary.shouldUseDictionary refs = true) (h : Storable lz4 refs)
    (hne : refs ≠ []) :
    ReadsStrings lz4 .dictionaryLz4 (Dictionary.encodeLz4 lz4 refs) refs := by
  obtain ⟨hsize, hcompressed⟩ := h.dictionary haccepted
  have hsorted := (Dictionary.covers_dictEntries haccepted h.short).perm
    (Dictionary.perm_sortEntries _)
  have hmem : ∀ e ∈ Dictionary.sortEntries (Dictionary.dictEntries refs), e ∈ refs := by
    intro e he
    apply (Dictionary.mem_dictEntries refs e).mp
    exact (Dictionary.perm_sortEntries _).mem_iff.mp he
  rw [← Dictionary.length_entriesBlob_sorted] at hsize
  have hnormal := Dictionary.normalizeLz4_emitLz4 hlz4 hsize hcompressed hsorted.small refs
  rw [← Dictionary.encodeLz4_eq_emitLz4 lz4 haccepted h.short hne] at hnormal
  have hread := Dictionary.plainRead_emit hsorted hmem
  refine ⟨.inr (.inl rfl), ?_, fun _ _ texts htexts => ?_⟩
  · simp only [decodeByteValues, hnormal, bind, Option.bind]
    exact hread.byteSlices
  · simp only [decodeByTag, hnormal, bind, Option.bind]
    exact hread.text texts htexts

theorem readsStrings_lz4Blocked (hlz4 : lz4.Inverts) {refs : List (List UInt8)}
    (hrejected : Dictionary.shouldUseDictionary refs = false) (h : Storable lz4 refs) :
    ReadsStrings lz4 .lz4Blocked (Lz4.encodeBlocked lz4 refs defaultBlockSize) refs := by
  obtain ⟨hblocks, hsize, hraw⟩ := h.blocks hrejected
  refine ⟨.inr (.inr rfl), ?_, fun _ _ texts htexts => ?_⟩
  · have hcov : Lz4.Covers none refs.length := fun sel hsel => by cases hsel
    obtain ⟨buf, ranges, hread, hselective⟩ := Lz4.decodeToRangesBlocked_spec hlz4
      (show 0 < defaultBlockSize by decide) (by decide) hblocks hsize hraw hcov
    rw [decodeByteValues, hread]
    exact rangeBytes_selectiveRead hselective
  · subst htexts
    rw [List.length_map] at hblocks ⊢
    exact Lz4.decodeBlocked_spec hlz4 texts (by decide) hblocks hsize hraw

/-- The tag that the writer of strings picks names a reader of what it wrote. -/
theorem encodeStrings_spec (hlz4 : lz4.Inverts) {refs : List (List UInt8)}
    (h : Storable lz4 refs) :
    ReadsStrings lz4 (encodeStrings lz4 refs).1 (encodeStrings lz4 refs).2 refs := by
  unfold encodeStrings
  cases haccepted : Dictionary.shouldUseDictionary refs with
  | false => exact readsStrings_lz4Blocked hlz4 haccepted h
  | true =>
      rw [if_pos rfl]
      dsimp only
      split_ifs with hshorter
      · apply readsStrings_dictionaryLz4 hlz4 haccepted h
        rintro rfl
        have hplain : (Dictionary.encode []).length = 7 := rfl
        have hlz4Length : (Dictionary.encodeLz4 lz4 []).length = 11 := rfl
        omega
      · exact readsStrings_dictionary haccepted h.short

theorem compressStrings_eq (lz4 : Lz4Flex) (values : List (Option (List UInt8))) :
    compressStrings lz4 values =
      blob (encodeStrings lz4 values.reduceOption).1 values.length (extractNulls values).2
        (encodeStrings lz4 values.reduceOption).2 :=
  rfl

theorem compressBinaryValues_eq (lz4 : Lz4Flex) (values : List (Option (List UInt8))) :
    compressBinaryValues lz4 values =
      some (blob (encodeStrings lz4 values.reduceOption).1.toBinaryVariant values.length
        (extractNulls values).2 (encodeStrings lz4 values.reduceOption).2) := by
  rw [compressBinaryValues, compressStrings_eq]
  show (CompressionType.fromU8 (CompressionType.toU8 _)).map _ = _
  rw [CompressionType.fromU8_toU8]
  rfl

theorem textTag_toBinaryVariant {typeTag : CompressionType}
    (h : typeTag = .dictionary ∨ typeTag = .dictionaryLz4 ∨ typeTag = .lz4Blocked) :
    textTag typeTag.toBinaryVariant = some typeTag := by
  rcases h with rfl | rfl | rfl <;> rfl

/-! ## Which reader a type and a tag lead to -/

theorem decodeStrings_jsonb (typeTag : CompressionType) (data : List UInt8) (count : ℕ) :
    decodeStrings lz4 out "jsonb".toList typeTag data count =
      (decodeByteValues lz4 typeTag data count).map (List.map out.jsonb) := by
  rw [decodeStrings, if_pos (beq_self_eq_true _)]

theorem decodeStrings_binary {typeTag tag : CompressionType} (hdt : dt ≠ "jsonb".toList)
    (htag : textTag typeTag = some tag) {render : List UInt8 → Text}
    (hout : binaryOut out dt = some render) (data : List UInt8) (count : ℕ) :
    decodeStrings lz4 out dt typeTag data count =
      (decodeByteValues lz4 tag data count).map (List.map render) := by
  rw [decodeStrings, if_neg (by simpa using hdt), htag]
  dsimp only
  rw [hout]
  cases decodeByteValues lz4 tag data count <;> rfl

theorem decodeStrings_scaled (hdt : dt ≠ "jsonb".toList) (data : List UInt8) (count : ℕ) :
    decodeStrings lz4 out dt .numericScaled data count = decodeNumericScaled data count := by
  rw [decodeStrings, if_neg (by simpa using hdt)]
  rfl

theorem decodeStrings_time (hdt : dt ≠ "jsonb".toList) (htime : isTime dt = true)
    {typeTag : CompressionType} (htag : isIntegerTag typeTag = true) (data : List UInt8)
    (count : ℕ) :
    decodeStrings lz4 out dt typeTag data count =
      (decodeI64 typeTag data count).map (List.map fun usec => usecToTimeString usec.toInt) := by
  have hbinary : textTag typeTag = none := by cases typeTag <;> first | rfl | cases htag
  have hscaled : typeTag ≠ .numericScaled := by
    rintro rfl
    cases htag
  rw [decodeStrings, if_neg (by simpa using hdt), hbinary]
  dsimp only
  rw [if_neg hscaled, htime, htag, if_pos (Bool.and_self true)]
  cases decodeI64 typeTag data count <;> rfl

theorem decodeStrings_byTag (hdt : dt ≠ "jsonb".toList) {typeTag : CompressionType}
    (hbinary : textTag typeTag = none) (hscaled : typeTag ≠ .numericScaled)
    (htime : (isTime dt && isIntegerTag typeTag) = false) (data : List UInt8) (count : ℕ) :
    decodeStrings lz4 out dt typeTag data count = decodeByTag lz4 out dt typeTag data count := by
  rw [decodeStrings, if_neg (by simpa using hdt), hbinary]
  dsimp only
  rw [if_neg hscaled, htime, if_neg Bool.false_ne_true]

/-! ## Names -/

/-- What `classify_column` knows of a name with a kind. -/
def Named (dt : Text) : ColumnKind → Prop
  | .int16 => isSmallint dt = true
  | .int32 => isInteger dt = true
  | .int64 => dt = "bigint".toList ∨ dt = "int8".toList
  | .float64 => dt = "double precision".toList ∨ dt = "float8".toList
  | .float32 => isReal dt = true
  | .bool => dt = "boolean".toList ∨ dt = "bool".toList
  | .timestamp => contains dt "timestamp".toList = true
  | .timestamptz => dt = "timestamp with time zone".toList
  | .date => dt = "date".toList
  | .time => isTime dt = true
  | .jsonb => dt = "jsonb".toList
  | .uuid => dt = "uuid".toList
  | .bytea => dt = "bytea".toList
  | .inet => dt = "inet".toList ∨ dt = "cidr".toList
  | .text => dt ≠ "jsonb".toList

theorem eq_or_eq_of_beq {a b : Text} (h : (dt == a || dt == b) = true) : dt = a ∨ dt = b := by
  rwa [Bool.or_eq_true, beq_iff_eq, beq_iff_eq] at h

theorem named_classifyName (force : Bool) (dt : Text) : Named dt (classifyName force dt false) := by
  unfold classifyName
  rw [if_neg Bool.false_ne_true]
  refine iteInduction (motive := Named dt) (fun h => h) fun _ => ?_
  refine iteInduction (motive := Named dt) (fun h => h) fun _ => ?_
  refine iteInduction (motive := Named dt) (fun h => eq_or_eq_of_beq h) fun _ => ?_
  refine iteInduction (motive := Named dt) (fun h => eq_or_eq_of_beq h) fun _ => ?_
  refine iteInduction (motive := Named dt) (fun h => h) fun _ => ?_
  refine iteInduction (motive := Named dt) (fun h => eq_or_eq_of_beq h) fun _ => ?_
  refine iteInduction (motive := Named dt) (fun h => beq_iff_eq.mp h) fun _ => ?_
  refine iteInduction (motive := Named dt) (fun h => h) fun _ => ?_
  refine iteInduction (motive := Named dt) (fun h => beq_iff_eq.mp h) fun _ => ?_
  refine iteInduction (motive := Named dt) (fun h => beq_iff_eq.mp h) fun hjsonb => ?_
  have htext : dt ≠ "jsonb".toList := fun heq => hjsonb (beq_iff_eq.mpr heq)
  refine iteInduction (motive := Named dt) (fun _ => htext) fun _ => ?_
  refine iteInduction (motive := Named dt) (fun h => h) fun _ => ?_
  refine iteInduction (motive := Named dt) (fun h => beq_iff_eq.mp h) fun _ => ?_
  refine iteInduction (motive := Named dt) (fun h => beq_iff_eq.mp h) fun _ => ?_
  exact iteInduction (motive := Named dt) (fun h => eq_or_eq_of_beq h) fun _ => htext

/-! ## Columns -/

/-- The rendering of a 64-bit value, by the kind of its column. -/
def instantOut (kind : ColumnKind) (v : BitVec 64) : Text :=
  match kind with
  | .timestamp | .timestamptz => usecToTimestampString v.toInt
  | .date => usecToDateString v.toInt
  | .time => usecToTimeString v.toInt
  | _ => intText v.toInt

/-- The output function of a type that is stored as bytes. -/
def bytesOut (out : TypeOut) (dt : Text) : List UInt8 → Text :=
  if dt = "jsonb".toList then out.jsonb
  else if dt = "uuid".toList then out.uuid
  else if dt = "bytea".toList then out.bytea
  else if dt = "inet".toList then out.inet
  else out.cidr

def renderColumn (out : TypeOut) (dt : Text) (kind : ColumnKind) : TypedColumn → List (Option Text)
  | .int16 values => values.map (Option.map fun v => intText v.toInt)
  | .int32 values => values.map (Option.map fun v => intText v.toInt)
  | .int64 values => values.map (Option.map (instantOut kind))
  | .float64 values => values.map (Option.map out.float64)
  | .float32 values => values.map (Option.map out.float32)
  | .bool values => values.map (Option.map fun b => if b then "t".toList else "f".toList)
  | .text values => values
  | .bytes values => values.map (Option.map fun v => bytesOut out dt (ofBytes v))

def rowCount : TypedColumn → ℕ
  | .int16 values => values.length
  | .int32 values => values.length
  | .int64 values => values.length
  | .float64 values => values.length
  | .float32 values => values.length
  | .bool values => values.length
  | .text values => values.length
  | .bytes values => values.length

/-- A segment of texts that is stored as mantissas. -/
def isScaled (force : Bool) (dt : Text) (values : List (Option Text)) : Bool :=
  isNumeric dt && !force && (toUniformScaled values).isSome

/-- The values of a text column: with the name of a numeric type they are what `numeric_out`
writes, or do not parse as a decimal. -/
def NumericTexts (dt : Text) (values : List (Option Text)) : Prop :=
  isNumeric dt = true → ∀ s, some s ∈ values →
    (∃ r : Rendering, r.text = s) ∨ parseNumericScaled s = none

/-- The column fits its blob, and has the values of its type. -/
def Fits (lz4 : Lz4Flex) (force : Bool) (dt : Text) : TypedColumn → Prop
  | .text values => NumericTexts dt values ∧
      (isScaled force dt values = false → Storable lz4 (values.reduceOption.map utf8Bytes))
  | .bytes values => Storable lz4 (values.reduceOption.map ofBytes)
  | _ => True

theorem textTag_of_isIntegerTag {typeTag : CompressionType} (h : isIntegerTag typeTag = true) :
    textTag typeTag = none ∧ typeTag ≠ .numericScaled := by
  cases typeTag <;> first | exact ⟨rfl, by decide⟩ | cases h

theorem decodeStrings_integers (hdt : dt ≠ "jsonb".toList) (htime : isTime dt = false)
    {typeTag : CompressionType} (htag : isIntegerTag typeTag = true) (data : List UInt8)
    (count : ℕ) :
    decodeStrings lz4 out dt typeTag data count = decodeIntegers dt typeTag data count := by
  obtain ⟨hbinary, hscaled⟩ := textTag_of_isIntegerTag htag
  rw [decodeStrings_byTag hdt hbinary hscaled (by rw [htime, Bool.false_and])]
  cases typeTag <;> first | rfl | cases htag

/-- A column of 16-bit integers is stored with 32 bits and cut down again. -/
theorem roundTrip_int16 {values : List (Option (BitVec 16))} (hrows : values.length < 2 ^ 32)
    (hname : isSmallint dt = true) :
    ∃ bytes, compressTypedColumn lz4 force dt (.int16 values) = some bytes ∧
      decompressColumnValues lz4 out bytes dt =
        some (values.map (Option.map fun v => intText v.toInt)) := by
  obtain ⟨typeTag, data, hbest, htag, hdecode⟩ :=
    bestEncodingI32_spec (values.reduceOption.map (BitVec.signExtend 32))
  have hnames : dt ≠ "jsonb".toList ∧ isTime dt = false := by
    rcases eq_or_eq_of_beq hname with rfl | rfl <;> exact ⟨by decide, by decide⟩
  rw [List.length_map] at hdecode
  refine ⟨blob typeTag values.length (extractNulls values).2 (ofBytes data), ?_,
    decompress_blob hrows ?_⟩
  · show integerBlob _ _ (Integer.bestEncodingI32 (values.reduceOption.map _)) = _
    rw [hbest]
    rfl
  · have hcut : ∀ v : BitVec 16, (v.signExtend 32).setWidth 16 = v := fun v => by
      ext i hi
      have hwide : i < 32 := Nat.lt_trans hi (by decide)
      rw [BitVec.getElem_setWidth, BitVec.getLsbD_signExtend, if_pos hi, decide_eq_true hwide,
        Bool.true_and, BitVec.getLsbD_eq_getElem hi]
    rw [decodeStrings_integers hnames.1 hnames.2 htag, decodeIntegers, if_pos hname, hdecode]
    simp only [bind, Option.bind, List.map_map, Function.comp_def, hcut]
    rfl

theorem roundTrip_int32 {values : List (Option (BitVec 32))} (hrows : values.length < 2 ^ 32)
    (hname : isInteger dt = true) :
    ∃ bytes, compressTypedColumn lz4 force dt (.int32 values) = some bytes ∧
      decompressColumnValues lz4 out bytes dt =
        some (values.map (Option.map fun v => intText v.toInt)) := by
  obtain ⟨typeTag, data, hbest, htag, hdecode⟩ := bestEncodingI32_spec values.reduceOption
  have hnames : dt ≠ "jsonb".toList ∧ isTime dt = false ∧ ¬ isSmallint dt = true := by
    rcases eq_or_eq_of_beq hname with rfl | rfl <;> exact ⟨by decide, by decide, by decide⟩
  refine ⟨blob typeTag values.length (extractNulls values).2 (ofBytes data), ?_,
    decompress_blob hrows ?_⟩
  · show integerBlob _ _ (Integer.bestEncodingI32 values.reduceOption) = _
    rw [hbest]
    rfl
  · rw [decodeStrings_integers hnames.1 hnames.2.1 htag, decodeIntegers, if_neg hnames.2.2,
      if_pos hname, hdecode]
    rfl

/-- What is read from the encoding of 64-bit integers, for a type with integers or a time. -/
theorem roundTrip_int64 {values : List (Option (BitVec 64))} (hrows : values.length < 2 ^ 32)
    (hplain : isTimestampOrDate dt = false) {render : BitVec 64 → Text}
    (hread : ∀ typeTag data ints, isIntegerTag typeTag = true →
      decodeI64 typeTag data values.reduceOption.length = some ints →
      decodeStrings lz4 out dt typeTag data values.reduceOption.length =
        some (ints.map render)) :
    ∃ bytes, compressTypedColumn lz4 force dt (.int64 values) = some bytes ∧
      decompressColumnValues lz4 out bytes dt = some (values.map (Option.map render)) := by
  obtain ⟨typeTag, data, hbest, htag, hdecode⟩ := bestEncodingI64_spec values.reduceOption
  refine ⟨blob typeTag values.length (extractNulls values).2 (ofBytes data), ?_,
    decompress_blob hrows (hread _ _ _ htag hdecode)⟩
  show (if isTimestampOrDate dt = true then _ else
    integerBlob _ _ (Integer.bestEncodingI64 values.reduceOption)) = _
  rw [hplain, if_neg Bool.false_ne_true, hbest]
  rfl

theorem roundTrip_bigint {values : List (Option (BitVec 64))} (hrows : values.length < 2 ^ 32)
    (hname : dt = "bigint".toList ∨ dt = "int8".toList) :
    ∃ bytes, compressTypedColumn lz4 force dt (.int64 values) = some bytes ∧
      decompressColumnValues lz4 out bytes dt =
        some (values.map (Option.map (instantOut .int64))) := by
  have hnames : dt ≠ "jsonb".toList ∧ isTime dt = false ∧ isTimestampOrDate dt = false ∧
      ¬ isSmallint dt = true ∧ ¬ isInteger dt = true := by
    rcases hname with rfl | rfl <;>
      exact ⟨by decide, by decide, by decide, by decide, by decide⟩
  apply roundTrip_int64 hrows hnames.2.2.1
  intro typeTag data ints htag hdecode
  rw [decodeStrings_integers hnames.1 hnames.2.1 htag, decodeIntegers, if_neg hnames.2.2.2.1,
    if_neg hnames.2.2.2.2, hdecode]
  rfl

theorem roundTrip_time {values : List (Option (BitVec 64))} (hrows : values.length < 2 ^ 32)
    (hname : isTime dt = true) :
    ∃ bytes, compressTypedColumn lz4 force dt (.int64 values) = some bytes ∧
      decompressColumnValues lz4 out bytes dt =
        some (values.map (Option.map (instantOut .time))) := by
  have hnames : dt ≠ "jsonb".toList ∧ isTimestampOrDate dt = false := by
    rcases eq_or_eq_of_beq hname with rfl | rfl <;> exact ⟨by decide, by decide⟩
  apply roundTrip_int64 hrows hnames.2
  intro typeTag data ints htag hdecode
  rw [decodeStrings_time hnames.1 hname htag, hdecode]
  rfl

theorem decodeStrings_gorilla (hdt : dt ≠ "jsonb".toList) (data : List UInt8) (count : ℕ) :
    decodeStrings lz4 out dt .gorilla data count = decodeGorilla out dt data count := by
  rw [decodeStrings_byTag hdt rfl (by decide) (Bool.and_false _)]
  rfl

theorem roundTrip_instant {values : List (Option (BitVec 64))} (hrows : values.length < 2 ^ 32)
    (hdt : dt ≠ "jsonb".toList) (hname : isTimestampOrDate dt = true) :
    ∃ bytes, compressTypedColumn lz4 force dt (.int64 values) = some bytes ∧
      decompressColumnValues lz4 out bytes dt =
        some (values.map (Option.map fun usec => if dt == "date".toList then
          usecToDateString usec.toInt else usecToTimestampString usec.toInt)) := by
  refine ⟨blob .gorilla values.length (extractNulls values).2
    (ofBytes (GorillaTimestamps.encodeTimestamps values.reduceOption)), ?_,
    decompress_blob hrows ?_⟩
  · show (if isTimestampOrDate dt = true then _ else _) = _
    rw [if_pos hname]
    rfl
  · rw [decodeStrings_gorilla hdt, decodeGorilla, if_pos hname, toBytes_ofBytes,
      GorillaTimestamps.decodeTimestamps_encodeTimestamps]
    rfl

theorem roundTrip_float64 {values : List (Option (BitVec 64))} (hrows : values.length < 2 ^ 32)
    (hname : dt = "double precision".toList ∨ dt = "float8".toList) :
    ∃ bytes, compressTypedColumn lz4 force dt (.float64 values) = some bytes ∧
      decompressColumnValues lz4 out bytes dt = some (values.map (Option.map out.float64)) := by
  have hnames : dt ≠ "jsonb".toList ∧ ¬ isTimestampOrDate dt = true ∧ ¬ isReal dt = true := by
    rcases hname with rfl | rfl <;> exact ⟨by decide, by decide, by decide⟩
  refine ⟨blob .gorilla values.length (extractNulls values).2
    (ofBytes (GorillaFloats.encodeFloats values.reduceOption)), rfl, decompress_blob hrows ?_⟩
  have hdecode : GorillaFloats.decodeFloats (GorillaFloats.encodeFloats values.reduceOption)
      values.reduceOption.length = some values.reduceOption :=
    (GorillaFloats.lossless GorillaFloats.f64 values.reduceOption).decoded
  rw [decodeStrings_gorilla hnames.1, decodeGorilla, if_neg hnames.2.1, if_neg hnames.2.2,
    toBytes_ofBytes, hdecode]
  rfl

theorem roundTrip_float32 {values : List (Option (BitVec 32))} (hrows : values.length < 2 ^ 32)
    (hname : isReal dt = true) :
    ∃ bytes, compressTypedColumn lz4 force dt (.float32 values) = some bytes ∧
      decompressColumnValues lz4 out bytes dt = some (values.map (Option.map out.float32)) := by
  have hnames : dt ≠ "jsonb".toList ∧ ¬ isTimestampOrDate dt = true := by
    rcases eq_or_eq_of_beq hname with rfl | rfl <;> exact ⟨by decide, by decide⟩
  refine ⟨blob .gorilla values.length (extractNulls values).2
    (ofBytes (GorillaFloats.encodeFloatsF32 values.reduceOption)), rfl, decompress_blob hrows ?_⟩
  have hdecode : GorillaFloats.decodeFloatsF32
      (GorillaFloats.encodeFloatsF32 values.reduceOption) values.reduceOption.length =
      some values.reduceOption :=
    (GorillaFloats.lossless GorillaFloats.f32 values.reduceOption).decoded
  rw [decodeStrings_gorilla hnames.1, decodeGorilla, if_neg hnames.2, if_pos hname,
    toBytes_ofBytes, hdecode]
  rfl

theorem roundTrip_bool {values : List (Option Bool)} (hrows : values.length < 2 ^ 32)
    (hname : dt = "boolean".toList ∨ dt = "bool".toList) :
    ∃ bytes, compressTypedColumn lz4 force dt (.bool values) = some bytes ∧
      decompressColumnValues lz4 out bytes dt =
        some (values.map (Option.map fun b => if b then "t".toList else "f".toList)) := by
  have hdt : dt ≠ "jsonb".toList := by
    rcases hname with rfl | rfl <;> decide
  refine ⟨blob .booleanBitmap values.length (extractNulls values).2
    (ofBytes (BooleanBitmap.encode values.reduceOption)), rfl, decompress_blob hrows ?_⟩
  rw [decodeStrings_byTag hdt rfl (by decide) (Bool.and_false _), decodeByTag, toBytes_ofBytes,
    BooleanBitmap.decode_encode]
  rfl

/-! ## Texts and bytes -/

theorem roundTrip_strings (hlz4 : lz4.Inverts) {values : List (Option Text)}
    (hrows : values.length < 2 ^ 32) (hdt : dt ≠ "jsonb".toList)
    (hstorable : Storable lz4 (values.reduceOption.map utf8Bytes)) :
    decompressColumnValues lz4 out (compressStrings lz4 (values.map (Option.map utf8Bytes))) dt =
      some values := by
  have hspec := encodeStrings_spec hlz4 hstorable
  have hread := hspec.texts out dt values.reduceOption rfl
  rw [List.length_map] at hread
  have htags : textTag (encodeStrings lz4 (values.reduceOption.map utf8Bytes)).1 = none ∧
      (encodeStrings lz4 (values.reduceOption.map utf8Bytes)).1 ≠ .numericScaled ∧
      isIntegerTag (encodeStrings lz4 (values.reduceOption.map utf8Bytes)).1 = false := by
    rcases hspec.tag with htag | htag | htag <;> rw [htag] <;> exact ⟨rfl, by decide, rfl⟩
  have hstrings : decodeStrings lz4 out dt (encodeStrings lz4 (values.reduceOption.map utf8Bytes)).1
      (encodeStrings lz4 (values.reduceOption.map utf8Bytes)).2 values.reduceOption.length =
        some (values.reduceOption.map id) := by
    rw [decodeStrings_byTag hdt htags.1 htags.2.1 (by rw [htags.2.2, Bool.and_false]), hread,
      List.map_id]
  have hwhole := decompress_blob hrows hstrings
  rw [Option.map_id, List.map_id] at hwhole
  rw [compressStrings_eq, extractNulls_map, List.length_map, List.reduceOption_map]
  exact hwhole

/-- The mantissas of a segment are written back as the texts they were parsed from. -/
theorem map_formatNumericScaled {values : List (Option Text)} {scaled : List (Option (BitVec 64))}
    {dscale : ℕ} (huniform : Uniform dscale values scaled)
    (hcanonical : ∀ s, some s ∈ values → ∃ r : Rendering, r.text = s) :
    scaled.map (Option.map fun m => formatNumericScaled m dscale) = values := by
  induction values generalizing scaled with
  | nil => rw [uniform_nil.mp huniform, List.map_nil]
  | cons v values ih =>
      cases v with
      | none =>
          obtain ⟨rest, rfl, hrest⟩ := uniform_null.mp huniform
          rw [List.map_cons, ih hrest fun s hs => hcanonical s (List.mem_cons_of_mem _ hs)]
          rfl
      | some s =>
          obtain ⟨m, rest, hparse, rfl, hrest⟩ := uniform_value.mp huniform
          obtain ⟨r, hr⟩ := hcanonical s List.mem_cons_self
          rw [List.map_cons, ih hrest fun s hs => hcanonical s (List.mem_cons_of_mem _ hs),
            Option.map_some, ← hr, format_parse (by rw [hr]; exact hparse)]

theorem dscale_le {r : Rendering} {m : BitVec 64} {dscale : ℕ}
    (h : parseNumericScaled r.text = some (m, dscale)) : dscale ≤ maxDscale := by
  rw [parseNumericScaled_text] at h
  split_ifs at h with hfits
  exact (Prod.mk.inj (Option.some.inj h)).2 ▸ hfits.2

/-- The scale of a segment fits its byte. -/
theorem dscale_lt {values : List (Option Text)} {scaled : List (Option (BitVec 64))} {dscale : ℕ}
    (hscaled : toUniformScaled values = some (scaled, dscale))
    (hcanonical : ∀ s, some s ∈ values → ∃ r : Rendering, r.text = s) : dscale < 256 := by
  obtain ⟨huniform, hzero⟩ := toUniformScaled_eq_some.mp hscaled
  by_cases hall : ∀ v ∈ values, v = none
  · rw [hzero hall]
    decide
  · push Not at hall
    obtain ⟨v, hv, hsome⟩ := hall
    obtain ⟨s, rfl⟩ := Option.ne_none_iff_exists'.mp hsome
    obtain ⟨m, hparse⟩ := parses_of_uniform huniform hv
    obtain ⟨r, rfl⟩ := hcanonical s hv
    have hle := dscale_le hparse
    have hmax : maxDscale = 18 := rfl
    omega

theorem roundTrip_scaled {values : List (Option Text)} {scaled : List (Option (BitVec 64))}
    {dscale : ℕ} (hrows : values.length < 2 ^ 32) (hdt : dt ≠ "jsonb".toList)
    (hscaled : toUniformScaled values = some (scaled, dscale))
    (hcanonical : ∀ s, some s ∈ values → ∃ r : Rendering, r.text = s) :
    ∃ bytes, scaledBlob scaled dscale = some bytes ∧
      decompressColumnValues lz4 out bytes dt = some values := by
  obtain ⟨huniform, -⟩ := toUniformScaled_eq_some.mp hscaled
  have hlen : scaled.length = values.length := by
    have hboth := congrArg List.length huniform
    rw [List.length_map, List.length_map] at hboth
    exact hboth.symm
  obtain ⟨innerTag, data, hbest, htag, hdecode⟩ := bestEncodingI64_spec scaled.reduceOption
  have hback := map_formatNumericScaled huniform hcanonical
  refine ⟨blob .numericScaled scaled.length (extractNulls scaled).2
    (UInt8.ofNat dscale :: innerTag.toU8 :: ofBytes data), ?_, ?_⟩
  · show (Integer.bestEncodingI64 scaled.reduceOption).map _ = _
    rw [hbest]
    rfl
  · rw [← hback]
    apply decompress_blob (by omega)
    have hscale : (UInt8.ofNat dscale).toNat = dscale := by
      rw [UInt8.toNat_ofNat', Nat.mod_eq_of_lt (dscale_lt hscaled hcanonical)]
    rw [decodeStrings_scaled hdt, decodeNumericScaled]
    simp only [List.getElem?_cons_zero, List.getElem?_cons_succ, List.drop_succ_cons,
      List.drop_zero, bind, Option.bind, CompressionType.fromU8_toU8, hdecode, hscale]
    rfl

theorem roundTrip_text (hlz4 : lz4.Inverts) {values : List (Option Text)}
    (hrows : values.length < 2 ^ 32) (hdt : dt ≠ "jsonb".toList)
    (hfits : Fits lz4 force dt (.text values)) :
    ∃ bytes, compressTypedColumn lz4 force dt (.text values) = some bytes ∧
      decompressColumnValues lz4 out bytes dt = some values := by
  obtain ⟨hnumeric, hstorable⟩ := hfits
  show ∃ bytes, compressText lz4 force dt values = some bytes ∧ _
  unfold compressText
  unfold isScaled at hstorable
  by_cases htried : (isNumeric dt && !force) = true
  · rw [if_pos htried]
    rw [htried, Bool.true_and] at hstorable
    cases hscaled : toUniformScaled values with
    | none =>
        exact ⟨_, rfl, roundTrip_strings hlz4 hrows hdt (hstorable (by rw [hscaled]; rfl))⟩
    | some scaled =>
        apply roundTrip_scaled hrows hdt hscaled
        intro s hs
        obtain ⟨huniform, -⟩ := toUniformScaled_eq_some.mp hscaled
        obtain ⟨m, hparse⟩ := parses_of_uniform huniform hs
        rcases hnumeric (Bool.and_eq_true_iff.mp htried).1 s hs with hcanonical | hfails
        · exact hcanonical
        · rw [hparse] at hfails
          cases hfails
  · rw [if_neg htried]
    rw [Bool.not_eq_true] at htried
    exact ⟨_, rfl, roundTrip_strings hlz4 hrows hdt (hstorable (by rw [htried]; rfl))⟩

/-- Whatever is stored as strings is read with the output function of jsonb. -/
theorem decompress_jsonb (hlz4 : lz4.Inverts) {values : List (Option (List UInt8))}
    (hrows : values.length < 2 ^ 32) (hstorable : Storable lz4 values.reduceOption) :
    decompressColumnValues lz4 out (compressStrings lz4 values) "jsonb".toList =
        some (values.map (Option.map out.jsonb)) ∧
      decompressColumnByteValues lz4 (compressStrings lz4 values) = some values := by
  have hspec := encodeStrings_spec hlz4 hstorable
  rw [compressStrings_eq]
  constructor
  · apply decompress_blob hrows
    rw [decodeStrings_jsonb, hspec.bytes, Option.map_some]
  · exact decompressBytes_blob hrows hspec.bytes

theorem roundTrip_jsonb (hlz4 : lz4.Inverts) {values : List (Option Bytes)}
    (hrows : values.length < 2 ^ 32)
    (hstorable : Storable lz4 (values.reduceOption.map ofBytes)) :
    ∃ bytes, compressTypedColumn lz4 force "jsonb".toList (.bytes values) = some bytes ∧
      decompressColumnValues lz4 out bytes "jsonb".toList =
        some (values.map (Option.map fun v => out.jsonb (ofBytes v))) ∧
      decompressColumnByteValues lz4 bytes = some (values.map (Option.map ofBytes)) := by
  rw [← List.reduceOption_map] at hstorable
  obtain ⟨hread, hbytes⟩ := @decompress_jsonb lz4 out hlz4 (values.map (Option.map ofBytes))
    (by rwa [List.length_map]) hstorable
  refine ⟨compressStrings lz4 (values.map (Option.map ofBytes)), ?_, hread.trans ?_, hbytes⟩
  · show (if ("jsonb".toList == "jsonb".toList) = true then
      some (compressStrings lz4 (values.map (Option.map ofBytes))) else
      compressBinaryValues lz4 (values.map (Option.map ofBytes))) = _
    rw [if_pos (beq_self_eq_true _)]
  · rw [List.map_map]
    congr 2
    ext1 v
    cases v <;> rfl

theorem roundTrip_binary (hlz4 : lz4.Inverts) {values : List (Option Bytes)}
    (hrows : values.length < 2 ^ 32) (hdt : dt ≠ "jsonb".toList)
    (hout : binaryOut out dt = some (bytesOut out dt))
    (hstorable : Storable lz4 (values.reduceOption.map ofBytes)) :
    ∃ bytes, compressTypedColumn lz4 force dt (.bytes values) = some bytes ∧
      decompressColumnValues lz4 out bytes dt =
        some (values.map (Option.map fun v => bytesOut out dt (ofBytes v))) := by
  rw [← List.reduceOption_map] at hstorable
  have hspec := encodeStrings_spec hlz4 hstorable
  have hrows' : (values.map (Option.map ofBytes)).length < 2 ^ 32 := by rwa [List.length_map]
  have hwhole := decompress_blob hrows'
    (show decodeStrings lz4 out dt (encodeStrings lz4 _).1.toBinaryVariant
        (encodeStrings lz4 _).2 _ = some (List.map (bytesOut out dt) _) by
      rw [decodeStrings_binary hdt (textTag_toBinaryVariant hspec.tag) hout, hspec.bytes,
        Option.map_some])
  rw [List.map_map] at hwhole
  refine ⟨_, ?_, hwhole.trans ?_⟩
  · show (if (dt == "jsonb".toList) = true then _ else
      compressBinaryValues lz4 (values.map (Option.map ofBytes))) = _
    rw [if_neg (by simpa using hdt), compressBinaryValues_eq]
  · congr 1
    apply List.map_congr_left
    intro v _
    cases v <;> rfl

theorem binaryOut_eq (out : TypeOut)
    (hname : dt = "uuid".toList ∨ dt = "bytea".toList ∨ dt = "inet".toList ∨ dt = "cidr".toList) :
    dt ≠ "jsonb".toList ∧ binaryOut out dt = some (bytesOut out dt) := by
  rcases hname with rfl | rfl | rfl | rfl <;> exact ⟨by decide, rfl⟩

/-! ## Every column -/

/-- A name with a timestamp in it is not the name of another type. -/
theorem ne_of_contains {other : Text} (hdt : contains dt "timestamp".toList = true)
    (hother : contains other "timestamp".toList = false) : dt ≠ other := by
  rintro rfl
  rw [hother] at hdt
  cases hdt

theorem roundTrip_timestamp {values : List (Option (BitVec 64))} {kind : ColumnKind}
    (hkind : kind = .timestamp ∨ kind = .timestamptz) (hrows : values.length < 2 ^ 32)
    (hname : contains dt "timestamp".toList = true) :
    ∃ bytes, compressTypedColumn lz4 force dt (.int64 values) = some bytes ∧
      decompressColumnValues lz4 out bytes dt =
        some (values.map (Option.map (instantOut kind))) := by
  have hdate : dt ≠ "date".toList := ne_of_contains hname (by decide)
  have hinstant : isTimestampOrDate dt = true := by
    rw [isTimestampOrDate, hname, Bool.true_or]
  obtain ⟨bytes, hwrite, hread⟩ := @roundTrip_instant lz4 out dt force values hrows
    (ne_of_contains hname (by decide)) hinstant
  refine ⟨bytes, hwrite, hread.trans ?_⟩
  congr 2
  ext1 v
  congr 1
  ext1 usec
  rw [if_neg (by simpa using hdate)]
  rcases hkind with rfl | rfl <;> rfl

theorem roundTrip_date {values : List (Option (BitVec 64))} (hrows : values.length < 2 ^ 32) :
    ∃ bytes, compressTypedColumn lz4 force "date".toList (.int64 values) = some bytes ∧
      decompressColumnValues lz4 out bytes "date".toList =
        some (values.map (Option.map (instantOut .date))) :=
  roundTrip_instant hrows (by decide) (by decide)

/-- A column of the kind of its type is compressed into a blob that reads as the renderings of
its values, row by row. -/
theorem roundTrip (hlz4 : lz4.Inverts) (out : TypeOut) {column : TypedColumn} {kind : ColumnKind}
    (hname : Named dt kind) (hkind : column.hasKind kind = true) (hrows : rowCount column < 2 ^ 32)
    (hfits : Fits lz4 force dt column) :
    ∃ bytes, compressTypedColumn lz4 force dt column = some bytes ∧
      decompressColumnValues lz4 out bytes dt = some (renderColumn out dt kind column) := by
  cases column with
  | int16 values => cases kind <;> first | exact roundTrip_int16 hrows hname | cases hkind
  | int32 values => cases kind <;> first | exact roundTrip_int32 hrows hname | cases hkind
  | float32 values => cases kind <;> first | exact roundTrip_float32 hrows hname | cases hkind
  | float64 values => cases kind <;> first | exact roundTrip_float64 hrows hname | cases hkind
  | bool values => cases kind <;> first | exact roundTrip_bool hrows hname | cases hkind
  | text values => cases kind <;> first | exact roundTrip_text hlz4 hrows hname hfits | cases hkind
  | int64 values =>
      cases kind with
      | int64 => exact roundTrip_bigint hrows hname
      | timestamp => exact roundTrip_timestamp (.inl rfl) hrows hname
      | timestamptz =>
          have hcontains : contains dt "timestamp".toList = true := by
            rw [show dt = "timestamp with time zone".toList from hname]
            decide
          exact roundTrip_timestamp (.inr rfl) hrows hcontains
      | date =>
          rw [show dt = "date".toList from hname]
          exact roundTrip_date hrows
      | time => exact roundTrip_time hrows hname
      | _ => cases hkind
  | bytes values =>
      have hbinary : dt = "uuid".toList ∨ dt = "bytea".toList ∨ dt = "inet".toList ∨
          dt = "cidr".toList →
          ∃ bytes, compressTypedColumn lz4 force dt (.bytes values) = some bytes ∧
            decompressColumnValues lz4 out bytes dt =
              some (values.map (Option.map fun v => bytesOut out dt (ofBytes v))) := by
        intro hnames
        obtain ⟨hdt, hout⟩ := binaryOut_eq out hnames
        exact roundTrip_binary hlz4 hrows hdt hout hfits
      cases kind with
      | jsonb =>
          obtain rfl : dt = "jsonb".toList := hname
          obtain ⟨bytes, hwrite, hread, -⟩ := @roundTrip_jsonb lz4 out force hlz4 values hrows
            hfits
          exact ⟨bytes, hwrite, hread⟩
      | uuid => exact hbinary (.inl hname)
      | bytea => exact hbinary (.inr (.inl hname))
      | inet =>
          apply hbinary
          rcases hname with rfl | rfl
          · exact .inr (.inr (.inl rfl))
          · exact .inr (.inr (.inr rfl))
      | _ => cases hkind

theorem named_classify {isSegmentBy : Bool} (force : Bool)
    (hsegBy : isSegmentBy = true → dt ≠ "jsonb".toList) :
    Named dt (classifyName force dt isSegmentBy) := by
  cases isSegmentBy with
  | true => exact hsegBy rfl
  | false => exact named_classifyName force dt

/-- A column of the kind of its type is compressed into a blob that reads as the renderings of
its values, row by row; a blob of jsonb also reads as the stored bytes. -/
theorem decompress_compress (hlz4 : lz4.Inverts) (out : TypeOut) {column : TypedColumn}
    {isSegmentBy : Bool} (hsegBy : isSegmentBy = true → dt ≠ "jsonb".toList)
    (hkind : column.hasKind (classifyName force dt isSegmentBy) = true)
    (hrows : rowCount column < 2 ^ 32) (hfits : Fits lz4 force dt column) :
    ∃ bytes, compressTypedColumn lz4 force dt column = some bytes ∧
      decompressColumnValues lz4 out bytes dt =
        some (renderColumn out dt (classifyName force dt isSegmentBy) column) ∧
      (dt = "jsonb".toList → ∀ values, column = .bytes values →
        decompressColumnByteValues lz4 bytes = some (values.map (Option.map ofBytes))) := by
  obtain ⟨bytes, hwrite, hread⟩ := roundTrip hlz4 out (named_classify force hsegBy) hkind hrows
    hfits
  refine ⟨bytes, hwrite, hread, ?_⟩
  rintro rfl values rfl
  obtain ⟨stored, hstored, -, hbytes⟩ := @roundTrip_jsonb lz4 out force hlz4 values hrows hfits
  rw [hwrite] at hstored
  cases hstored
  exact hbytes

/-- Bytes written out as characters, and floats as the numbers of their bits. -/
def charsOut : TypeOut where
  jsonb := List.map fun b => Char.ofNat b.toNat
  uuid := List.map fun b => Char.ofNat b.toNat
  bytea := List.map fun b => Char.ofNat b.toNat
  inet := List.map fun b => Char.ofNat b.toNat
  cidr := List.map fun b => Char.ofNat b.toNat
  float64 bits := intText bits.toInt
  float32 bits := intText bits.toInt

/-- Three distinct values and a NULL, in blocks. -/
theorem decompress_compress_jsonb : ∃ bytes,
    compressTypedColumn Literals.lz4 false "jsonb".toList
        (.bytes [some [49#8], none, some [50#8], some [51#8, 48#8]]) = some bytes ∧
      decompressColumnValues Literals.lz4 charsOut bytes "jsonb".toList =
        some [some ['1'], none, some ['2'], some ['3', '0']] ∧
      decompressColumnByteValues Literals.lz4 bytes =
        some [some [49], none, some [50], some [51, 48]] := by
  have hstorable : Storable Literals.lz4 [[49], [50], [51, 48]] :=
    ⟨by decide, fun h => absurd h (by decide), fun _ => ⟨by decide, by decide, by decide⟩⟩
  obtain ⟨bytes, hwrite, hread, hbytes⟩ := @decompress_compress Literals.lz4 "jsonb".toList false
    Literals.lz4_inverts charsOut (.bytes [some [49#8], none, some [50#8], some [51#8, 48#8]])
    false (fun h => by cases h) (by decide) (by decide) hstorable
  exact ⟨bytes, hwrite, hread, hbytes rfl _ rfl⟩

/-! ## More blocks than the header counts -/

theorem utf8Bytes_injective {s t : Text} (h : utf8Bytes s = utf8Bytes t) : s = t := by
  have hread := fromUtf8_utf8Bytes t
  rw [← h, fromUtf8_utf8Bytes] at hread
  exact Option.some.inj hread

/-- With that many distinct strings the search for the distinct ones ends early. -/
theorem collectUnique_eq_none {uniq values : List (List UInt8)}
    (hdistinct : (uniq ++ values).Nodup) (hfew : uniq.length ≤ 65535)
    (hmany : 65535 < (uniq ++ values).length) : Dictionary.collectUnique uniq values = none := by
  induction values generalizing uniq with
  | nil =>
      rw [List.append_nil] at hmany
      omega
  | cons v values ih =>
      have hnew : v ∉ uniq := fun hv =>
        (List.nodup_append.mp hdistinct).2.2 v hv v List.mem_cons_self rfl
      rw [Dictionary.collectUnique, Dictionary.addUnique, if_neg hnew]
      split_ifs with hexit
      · rfl
      · rw [List.append_cons] at hdistinct hmany
        exact ih hdistinct (Nat.le_of_not_lt hexit) hmany

/-- The header of a column of `65536` blocks says that there are none. -/
theorem numBlocks_encodeBlocked_wraps {refs : List (List UInt8)} (hne : refs ≠ [])
    (hblocks : divCeil refs.length defaultBlockSize = 65536) :
    leAt 2 (Lz4.encodeBlocked lz4 refs defaultBlockSize) 2 = some 0 := by
  have hrest := at_zero (Lz4.encodeBlocked lz4 refs defaultBlockSize)
  rw [Lz4.encodeBlocked_eq hne, hblocks] at hrest
  have hsecond := hrest.skip
  rw [Support.LittleEndian.length_toLe] at hsecond
  rw [Lz4.encodeBlocked_eq hne, hblocks]
  exact hsecond.leAt (v := 0) (by decide)

theorem decodeBlocked_wraps {refs : List (List UInt8)} (hne : refs ≠ [])
    (hblocks : divCeil refs.length defaultBlockSize = 65536) :
    Lz4.decodeBlocked lz4 (Lz4.encodeBlocked lz4 refs defaultBlockSize) refs.length = none := by
  have hcount : refs.length ≠ 0 := fun h => hne (List.eq_nil_of_length_eq_zero h)
  obtain ⟨n, hn⟩ := Nat.exists_eq_succ_of_ne_zero hcount
  rw [Lz4.decodeBlocked, if_neg hcount, numBlocks_encodeBlocked_wraps hne hblocks, hn]
  rfl

theorem shouldUseDictionary_distinct {refs : List (List UInt8)} (hdistinct : refs.Nodup)
    (hmany : 65535 < refs.length) : Dictionary.shouldUseDictionary refs = false := by
  have hne : refs ≠ [] := by
    rintro rfl
    simp only [List.length_nil] at hmany
    omega
  have hnone : Dictionary.collectUnique [] refs = none :=
    collectUnique_eq_none hdistinct (Nat.zero_le _) hmany
  rw [Dictionary.shouldUseDictionary, if_neg hne, hnone]

/-- A column of distinct texts in that many blocks is not read back. -/
theorem decompress_distinctTexts {texts : List Text} (hdistinct : texts.Nodup)
    (hrows : texts.length < 2 ^ 32) (hblocks : divCeil texts.length defaultBlockSize = 65536) :
    decompressColumnValues lz4 out
      (compressStrings lz4 ((texts.map some).map (Option.map utf8Bytes))) "text".toList = none := by
  have hlen : (texts.map utf8Bytes).length = texts.length := List.length_map utf8Bytes
  have hmany : 65535 < texts.length := by
    rw [divCeil, defaultBlockSize] at hblocks
    omega
  have hne : texts.map utf8Bytes ≠ [] := by
    intro hnil
    rw [hnil, List.length_nil] at hlen
    omega
  have hrefs : ((texts.map some).map (Option.map utf8Bytes)).reduceOption =
      texts.map utf8Bytes := by
    rw [List.reduceOption_map, List.reduceOption, List.filterMap_map]
    exact congrArg (List.map utf8Bytes) List.filterMap_some
  have hblocked : encodeStrings lz4 (texts.map utf8Bytes) =
      (.lz4Blocked, Lz4.encodeBlocked lz4 (texts.map utf8Bytes) defaultBlockSize) := by
    rw [encodeStrings, shouldUseDictionary_distinct
      (hdistinct.map fun s t h => utf8Bytes_injective h) (by rwa [hlen])]
    rfl
  have hrows' : ((texts.map some).map (Option.map utf8Bytes)).length < 2 ^ 32 := by
    rwa [List.length_map, List.length_map]
  have hnone : decodeStrings lz4 out "text".toList .lz4Blocked
      (Lz4.encodeBlocked lz4 (texts.map utf8Bytes) defaultBlockSize)
      (texts.map utf8Bytes).length = none := by
    rw [decodeStrings_byTag (by decide) rfl (by decide) rfl]
    exact decodeBlocked_wraps hne (by rwa [hlen])
  rw [compressStrings_eq, hrefs, hblocked, decompressColumnValues, if_neg (blob_ne_nil _ _ _ _),
    fromBytes_blob hrows']
  simp only [bind, Option.bind, countNonNull_extractNulls, hrefs, hnone]

def numbered (rows : ℕ) : List Text := (List.range rows).map (Nat.toDigits 10)

theorem nodup_numbered (rows : ℕ) : (numbered rows).Nodup := by
  apply List.nodup_range.map
  intro m n h
  calc m = Nat.ofDigitChars 10 (Nat.toDigits 10 m) 0 := Nat.ofDigitChars_ten_toDigits.symm
    _ = Nat.ofDigitChars 10 (Nat.toDigits 10 n) 0 := by rw [h]
    _ = n := Nat.ofDigitChars_ten_toDigits

theorem length_numbered (rows : ℕ) : (numbered rows).length = rows := by
  rw [numbered, List.length_map, List.length_range]

/-- A text column of fewer than `2 ^ 32` rows whose blob is not read back, and the texts of a
segment-by column of jsonb, which are read as jsonb. -/
theorem blobs_not_read_back :
    ((TypedColumn.text ((numbered 655350001).map some)).hasKind
        (classifyName false "text".toList false) = true ∧
      rowCount (.text ((numbered 655350001).map some)) < 2 ^ 32 ∧
      ∀ (lz4 : Lz4Flex) (out : TypeOut), ∃ bytes,
        compressTypedColumn lz4 false "text".toList (.text ((numbered 655350001).map some)) =
          some bytes ∧
        decompressColumnValues lz4 out bytes "text".toList = none) ∧
    (TypedColumn.text [some ['1'], some ['2'], some ['3']]).hasKind
        (classifyName false "jsonb".toList true) = true ∧
      ∃ bytes, compressTypedColumn Literals.lz4 false "jsonb".toList
          (.text [some ['1'], some ['2'], some ['3']]) = some bytes ∧
        decompressColumnValues Literals.lz4 { charsOut with jsonb := fun _ => [] } bytes
          "jsonb".toList = some [some [], some [], some []] := by
  constructor
  · have hlen := length_numbered 655350001
    have hdistinct := nodup_numbered 655350001
    generalize numbered 655350001 = texts at hlen hdistinct
    refine ⟨rfl, ?_, fun lz4 out => ⟨_, rfl, ?_⟩⟩
    · rw [rowCount, List.length_map, hlen]
      decide
    · apply decompress_distinctTexts hdistinct
      · rw [hlen]
        decide
      · rw [hlen]
        decide
  · have hstorable : Storable Literals.lz4 [[49], [50], [51]] :=
      ⟨by decide, fun h => absurd h (by decide), fun _ => ⟨by decide, by decide, by decide⟩⟩
    refine ⟨rfl, _, rfl, ?_⟩
    exact (@decompress_jsonb Literals.lz4 { charsOut with jsonb := fun _ => [] }
      Literals.lz4_inverts [some [49], some [50], some [51]] (by decide) hstorable).1

end DeltaX.Codec.ColumnBlobs
