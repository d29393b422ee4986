import DeltaX.Codec.CompressionType
import DeltaX.Support.ByteBits
import DeltaX.Support.ByteSlices
import Mathlib.Data.List.ReduceOption
/-!
# Compressed column blobs

A blob is a tag, the number of rows, a bitmap of the NULL rows where there are any, and what the
codec of the tag made of the values.  Reading out of a slice, or a tag that is not known,
panics: the reader is `none` there.
-/

namespace DeltaX.Codec

open Support.ByteBits Support.LittleEndian Support.ByteSlices

def CompressionType.toU8 : CompressionType → UInt8
  | gorilla => 1
  | deltaVarint => 2
  | dictionary => 3
  | lz4 => 4
  | booleanBitmap => 5
  | lz4Blocked => 6
  | constant => 7
  | forBitpacked => 8
  | dictionaryLz4 => 9
  | binaryDictionary => 10
  | binaryDictionaryLz4 => 11
  | binaryLz4Blocked => 12
  | numericScaled => 13

def CompressionType.fromU8 (v : UInt8) : Option CompressionType :=
  match v with
  | 1 => some gorilla
  | 2 => some deltaVarint
  | 3 => some dictionary
  | 4 => some lz4
  | 5 => some booleanBitmap
  | 6 => some lz4Blocked
  | 7 => some constant
  | 8 => some forBitpacked
  | 9 => some dictionaryLz4
  | 10 => some binaryDictionary
  | 11 => some binaryDictionaryLz4
  | 12 => some binaryLz4Blocked
  | 13 => some numericScaled
  | _ => none

def CompressionType.toBinaryVariant : CompressionType → CompressionType
  | dictionary => binaryDictionary
  | dictionaryLz4 => binaryDictionaryLz4
  | lz4Blocked => binaryLz4Blocked
  | other => other

theorem CompressionType.fromU8_toU8 (tag : CompressionType) : fromU8 tag.toU8 = some tag := by
  cases tag <;> rfl

theorem CompressionType.eq_toU8_of_fromU8 {v : UInt8} {tag : CompressionType}
    (h : fromU8 v = some tag) : v = tag.toU8 := by
  unfold fromU8 at h
  split at h <;> cases h <;> rfl

structure CompressedColumn where
  typeTag : CompressionType
  rowCount : ℕ
  nullBitmap : Bytes
  data : List UInt8

namespace CompressedColumn

/-- `row_count.div_ceil(8)`. -/
def bitmapLen (rowCount : ℕ) : ℕ := (rowCount + 7) / 8

def toBytes (cc : CompressedColumn) : List UInt8 :=
  let hasNulls := !cc.nullBitmap.isEmpty
  cc.typeTag.toU8 :: (toLe 4 cc.rowCount ++ (if hasNulls then 1 else 0) ::
    ((if hasNulls then (cc.nullBitmap.take (bitmapLen cc.rowCount)).map UInt8.ofBitVec else []) ++
      cc.data))

def fromBytes (bytes : List UInt8) : Option CompressedColumn := do
  let tag ← bytes[0]?
  let typeTag ← CompressionType.fromU8 tag
  let rowCount ← leAt 4 bytes 1
  let hasNulls ← bytes[5]?
  if hasNulls ≠ 0 then do
    let bitmap ← slice bytes 6 (6 + bitmapLen rowCount)
    let data ← slice bytes (6 + bitmapLen rowCount) bytes.length
    return { typeTag, rowCount, nullBitmap := bitmap.map UInt8.toBitVec, data }
  else do
    let data ← slice bytes 6 bytes.length
    return { typeTag, rowCount, nullBitmap := [], data }

/-- The number of rows is a `u32`, and the bitmap has a bit for each or is left out. -/
structure WellFormed (cc : CompressedColumn) : Prop where
  rowCount_lt : cc.rowCount < 2 ^ 32
  bitmap : cc.nullBitmap = [] ∨ cc.nullBitmap.length = bitmapLen cc.rowCount

theorem readHeader {bytes rest : List UInt8} {tag flag : UInt8} {n : ℕ} (hn : n < 2 ^ 32)
    (hbytes : bytes = [tag] ++ (toLe 4 n ++ ([flag] ++ rest))) :
    bytes[0]? = some tag ∧ leAt 4 bytes 1 = some n ∧ bytes[5]? = some flag ∧ At bytes 6 rest := by
  have hat : At bytes 0 ([tag] ++ (toLe 4 n ++ ([flag] ++ rest))) := by
    rw [← hbytes]
    exact at_zero bytes
  have hcount := hat.skip
  have hflag := hcount.skip
  rw [length_toLe] at hflag
  exact ⟨hat.get, hcount.leAt hn, hflag.get, hflag.skip⟩

theorem map_toBitVec_ofBitVec (bitmap : Bytes) :
    (bitmap.map UInt8.ofBitVec).map UInt8.toBitVec = bitmap := by
  rw [List.map_map]
  exact List.map_id bitmap

theorem fromBytes_toBytes {cc : CompressedColumn} (h : cc.WellFormed) :
    fromBytes cc.toBytes = some cc := by
  obtain ⟨typeTag, rowCount, nullBitmap, data⟩ := cc
  by_cases hnulls : nullBitmap = []
  · subst hnulls
    obtain ⟨htag, hsize, hflag, hat⟩ := readHeader h.rowCount_lt
      (show toBytes ⟨typeTag, rowCount, [], data⟩ =
        [typeTag.toU8] ++ (toLe 4 rowCount ++ ([0] ++ data)) from rfl)
    simp only [fromBytes, htag, CompressionType.fromU8_toU8, hsize, hflag, hat.slice_end, bind,
      Option.bind, ne_eq, not_true_eq_false, if_false]
    rfl
  · have hlen : nullBitmap.length = bitmapLen rowCount := h.bitmap.resolve_left hnulls
    have hempty : nullBitmap.isEmpty = false := by simpa using hnulls
    have hbytes : toBytes ⟨typeTag, rowCount, nullBitmap, data⟩ =
        [typeTag.toU8] ++ (toLe 4 rowCount ++ ([1] ++
          (nullBitmap.map UInt8.ofBitVec ++ data))) := by
      simp only [toBytes, hempty, Bool.not_false, if_true]
      rw [List.take_of_length_le hlen.le]
      rfl
    obtain ⟨htag, hsize, hflag, hat⟩ := readHeader h.rowCount_lt hbytes
    have hbitmap := hat.slice
    have hdata := hat.skip.slice_end
    rw [List.length_map, hlen] at hbitmap hdata
    simp only [fromBytes, htag, CompressionType.fromU8_toU8, hsize, hflag, hbitmap, hdata, bind,
      Option.bind, map_toBitVec_ofBitVec]
    rfl

end CompressedColumn

/-! ## NULL rows -/

def nullPositions {α : Type} (values : List (Option α)) : List ℕ :=
  (List.range values.length).filter fun i => (values[i]?.getD none).isNone

def extractNulls {α : Type} (values : List (Option α)) : List α × Bytes :=
  let bitmap := setBits (List.replicate (CompressedColumn.bitmapLen values.length) 0#8)
    (nullPositions values)
  (values.reduceOption, if values.any Option.isNone then bitmap else [])

/-- The rows from `i` on, `rows` of them; `valIdx` values have been put back. -/
def reinsertFrom {α : Type} (values : List α) (nullBitmap : Bytes) (i valIdx : ℕ) :
    ℕ → Option (List (Option α))
  | 0 => some []
  | rows + 1 => do
      let byte ← nullBitmap[i / 8]?
      if (byte >>> (i % 8)) &&& 1#8 = 1#8 then
        (none :: ·) <$> reinsertFrom values nullBitmap (i + 1) valIdx rows
      else do
        let v ← values[valIdx]?
        (some v :: ·) <$> reinsertFrom values nullBitmap (i + 1) (valIdx + 1) rows

def reinsertNulls {α : Type} (values : List α) (nullBitmap : Bytes) (totalCount : ℕ) :
    Option (List (Option α)) :=
  if nullBitmap = [] then some (values.map some)
  else reinsertFrom values nullBitmap 0 0 totalCount

theorem mem_nullPositions {α : Type} (values : List (Option α)) (i : ℕ) :
    i ∈ nullPositions values ↔ values[i]? = some none := by
  rw [nullPositions, List.mem_filter, List.mem_range, Option.isNone_iff_eq_none]
  constructor
  · rintro ⟨hi, hnull⟩
    rw [List.getElem?_eq_getElem hi] at hnull ⊢
    exact congrArg some hnull
  · intro h
    exact ⟨(List.getElem?_eq_some_iff.mp h).1, by rw [h]; rfl⟩

theorem length_extractNulls_snd {α : Type} (values : List (Option α)) :
    (extractNulls values).2 = [] ∨
      (extractNulls values).2.length = CompressedColumn.bitmapLen values.length := by
  unfold extractNulls
  by_cases hany : values.any Option.isNone = true
  · right
    simp [hany]
  · left
    simp [hany]

/-- The bitmap has a bit for each row, set where the row is NULL. -/
theorem getLsbD_extractNulls {α : Type} {values : List (Option α)}
    (hany : values.any Option.isNone = true) {i : ℕ} (hi : i < values.length) :
    ∃ byte, (extractNulls values).2[i / 8]? = some byte ∧
      (byte.getLsbD (i % 8) = true ↔ values[i]? = some none) := by
  have hlen : (extractNulls values).2.length = CompressedColumn.bitmapLen values.length := by
    simp [extractNulls, hany]
  have hbyte : i / 8 < (extractNulls values).2.length := by
    rw [hlen, CompressedColumn.bitmapLen]
    omega
  refine ⟨(extractNulls values).2[i / 8], List.getElem?_eq_getElem hbyte, ?_⟩
  have hbit : testBit (extractNulls values).2 i = true ↔ values[i]? = some none := by
    have hrange : i < 8 * CompressedColumn.bitmapLen values.length := by
      rw [CompressedColumn.bitmapLen]
      omega
    simp only [extractNulls, hany, if_true]
    rw [testBit_setBits, testBit_replicate_zero, List.length_replicate, Bool.false_or,
      decide_eq_true_iff, mem_nullPositions]
    exact and_iff_left hrange
  rw [← hbit, testBit_eq, List.getElem?_eq_getElem hbyte, Option.getD_some]

theorem shiftRight_and_one_iff (byte : BitVec 8) (k : ℕ) :
    (byte >>> k) &&& 1#8 = 1#8 ↔ byte.getLsbD k = true := by
  have hone : (1#8).getLsbD 0 = true := rfl
  constructor
  · intro h
    have hbit := congrArg (fun b => BitVec.getLsbD b 0) h
    simpa using hbit
  · intro h
    ext i hi
    by_cases hzero : i = 0
    · subst hzero
      simpa using h
    · have hclear : (1#8)[i] = false := by
        simp [BitVec.getElem_one, hzero]
      rw [BitVec.getElem_and, hclear, Bool.and_false]

/-- The rows that are left are put back as they were. -/
theorem reinsertFrom_spec {α : Type} {values : List (Option α)} {bitmap : Bytes}
    (hbits : ∀ i, i < values.length → ∃ byte, bitmap[i / 8]? = some byte ∧
      (byte.getLsbD (i % 8) = true ↔ values[i]? = some none))
    (before rest : List (Option α)) (hsplit : values = before ++ rest) :
    reinsertFrom values.reduceOption bitmap before.length before.reduceOption.length rest.length =
      some rest := by
  induction rest generalizing before with
  | nil => rfl
  | cons v rest ih =>
      have hrow : values[before.length]? = some v := by
        rw [hsplit]
        simp
      obtain ⟨byte, hbyte, hbit⟩ := hbits before.length (by
        rw [hsplit, List.length_append, List.length_cons]
        omega)
      have hnext := ih (before ++ [v]) (by rw [hsplit, List.append_assoc]; rfl)
      rw [List.length_append, List.length_singleton, List.reduceOption_append] at hnext
      rw [List.length_cons, reinsertFrom, hbyte]
      cases v with
      | none =>
          have hset : byte >>> (before.length % 8) &&& 1#8 = 1#8 :=
            (shiftRight_and_one_iff _ _).mpr (hbit.mpr hrow)
          have hreduce : ([none] : List (Option α)).reduceOption = [] := rfl
          rw [hreduce, List.append_nil] at hnext
          simp only [bind, Option.bind, if_pos hset, hnext]
          rfl
      | some x =>
          have hclear : ¬ byte >>> (before.length % 8) &&& 1#8 = 1#8 := by
            rw [shiftRight_and_one_iff, hbit, hrow]
            simp
          have hreduce : ([some x] : List (Option α)).reduceOption = [x] := rfl
          rw [hreduce, List.length_append, List.length_singleton] at hnext
          have hvalue : values.reduceOption[before.reduceOption.length]? = some x := by
            rw [hsplit, List.reduceOption_append, List.reduceOption_cons_of_some]
            simp
          simp only [bind, Option.bind, if_neg hclear, hvalue, hnext]
          rfl

theorem map_some_reduceOption {α : Type} {values : List (Option α)}
    (h : ∀ v ∈ values, v.isSome = true) : values.reduceOption.map some = values := by
  induction values with
  | nil => rfl
  | cons v values ih =>
      obtain ⟨x, rfl⟩ := Option.isSome_iff_exists.mp (h v List.mem_cons_self)
      rw [List.reduceOption_cons_of_some, List.map_cons,
        ih fun w hw => h w (List.mem_cons_of_mem _ hw)]

theorem reinsertNulls_extractNulls {α : Type} (values : List (Option α)) :
    reinsertNulls (extractNulls values).1 (extractNulls values).2 values.length = some values := by
  by_cases hany : values.any Option.isNone = true
  · have hne : (extractNulls values).2 ≠ [] := by
      obtain ⟨v, hv, _⟩ := List.any_eq_true.mp hany
      have hpos : 0 < values.length := List.length_pos_of_mem hv
      obtain ⟨byte, hbyte, _⟩ := getLsbD_extractNulls hany hpos
      intro hnil
      rw [hnil] at hbyte
      cases hbyte
    rw [reinsertNulls, if_neg hne]
    exact reinsertFrom_spec (fun i hi => getLsbD_extractNulls hany hi) [] values rfl
  · have hempty : (extractNulls values).2 = [] := by simp [extractNulls, hany]
    have hall : ∀ v ∈ values, v.isSome = true := by
      intro v hv
      by_contra hnone
      exact hany (List.any_eq_true.mpr ⟨v, hv, by simpa using hnone⟩)
    rw [reinsertNulls, if_pos hempty]
    exact congrArg some (map_some_reduceOption hall)

end DeltaX.Codec
