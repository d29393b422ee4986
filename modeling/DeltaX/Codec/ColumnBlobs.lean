import DeltaX.Codec.BooleanBitmap
import DeltaX.Codec.DictionaryRows
import DeltaX.Codec.GorillaFloats
import DeltaX.Codec.GorillaTimestamps
import DeltaX.Codec.Integer
import DeltaX.Codec.Lz4Blocked
import DeltaX.Codec.NumericScaled
import DeltaX.Column.TimestampRoundTrip
/-!
# Column blobs

A column is compressed by its representation and the name of its data type, and read back by
the tag of the blob and the same name.  Names are in lower case, as both sides use them.  A
reader is `none` where the code raises an error or panics.
-/

namespace DeltaX.Codec.ColumnBlobs

open DeltaX.Column Column.Timeparse Column.TimestampRoundTrip Support.ByteBits Support.Utf8
open NumericScaled
open BooleanBitmap (countNonNull)

/-! ## Names of data types -/

/-- `str::contains`. -/
def contains (name part : Text) : Bool := name.tails.any fun rest => part.isPrefixOf rest

def isSmallint (dt : Text) : Bool := dt == "smallint".toList || dt == "int2".toList

def isInteger (dt : Text) : Bool := dt == "integer".toList || dt == "int4".toList

def isReal (dt : Text) : Bool := dt == "real".toList || dt == "float4".toList

def isTime (dt : Text) : Bool := dt == "time".toList || dt == "time without time zone".toList

def isTimestampOrDate (dt : Text) : Bool := contains dt "timestamp".toList || dt == "date".toList

def isNumeric (dt : Text) : Bool :=
  "numeric".toList.isPrefixOf dt || "decimal".toList.isPrefixOf dt

/-- `classify_column` on the lower-cased name. -/
def classifyName (forceTextFallback : Bool) (dt : Text) (isSegmentBy : Bool) : ColumnKind :=
  if isSegmentBy then .text
  else if isSmallint dt then .int16
  else if isInteger dt then .int32
  else if dt == "bigint".toList || dt == "int8".toList then .int64
  else if dt == "double precision".toList || dt == "float8".toList then .float64
  else if isReal dt then .float32
  else if dt == "boolean".toList || dt == "bool".toList then .bool
  else if dt == "timestamp with time zone".toList then .timestamptz
  else if contains dt "timestamp".toList then .timestamp
  else if dt == "date".toList then .date
  else if dt == "jsonb".toList then .jsonb
  else if forceTextFallback then .text
  else if isTime dt then .time
  else if dt == "uuid".toList then .uuid
  else if dt == "bytea".toList then .bytea
  else if dt == "inet".toList || dt == "cidr".toList then .inet
  else .text

/-! ## Writing -/

/-- Bytes of the integer and float codecs in a blob. -/
def ofBytes (bytes : Bytes) : List UInt8 := bytes.map UInt8.ofBitVec

def toBytes (bytes : List UInt8) : Bytes := bytes.map UInt8.toBitVec

/-- `CompressedColumn { .. }.to_bytes()`, with `values.len() as u32` rows. -/
def blob (typeTag : CompressionType) (rows : ℕ) (nullBitmap : Bytes) (data : List UInt8) :
    List UInt8 :=
  CompressedColumn.toBytes { typeTag, rowCount := rows % 2 ^ 32, nullBitmap, data }

/-- A blob with the encoding that `best_encoding` picked. -/
def integerBlob (rows : ℕ) (nullBitmap : Bytes) (best : Option (CompressionType × Bytes)) :
    Option (List UInt8) :=
  best.map fun (typeTag, encoded) => blob typeTag rows nullBitmap (ofBytes encoded)

def defaultBlockSize : ℕ := 10000

/-- The tag and the payload in `compress_column_values`. -/
def encodeStrings (lz4 : Lz4Flex) (refs : List (List UInt8)) : CompressionType × List UInt8 :=
  if Dictionary.shouldUseDictionary refs then
    let dictEncoded := Dictionary.encode refs
    let lz4Encoded := Dictionary.encodeLz4 lz4 refs
    if lz4Encoded.length < dictEncoded.length then (.dictionaryLz4, lz4Encoded)
    else (.dictionary, dictEncoded)
  else (.lz4Blocked, Lz4.encodeBlocked lz4 refs defaultBlockSize)

/-- `compress_column_values`, and `compress_byte_values` on any bytes. -/
def compressStrings (lz4 : Lz4Flex) (values : List (Option (List UInt8))) : List UInt8 :=
  let (refs, nullBitmap) := extractNulls values
  let (typeTag, encoded) := encodeStrings lz4 refs
  blob typeTag values.length nullBitmap encoded

def compressBinaryValues (lz4 : Lz4Flex) (values : List (Option (List UInt8))) :
    Option (List UInt8) :=
  match compressStrings lz4 values with
  | [] => some []
  | tag :: rest =>
      (CompressionType.fromU8 tag).map fun typeTag => typeTag.toBinaryVariant.toU8 :: rest

/-- `compress_numeric_scaled` on a segment that qualifies. -/
def scaledBlob (scaled : List (Option (BitVec 64))) (dscale : ℕ) : Option (List UInt8) :=
  let (nonNull, nullBitmap) := extractNulls scaled
  (Integer.bestEncodingI64 nonNull).map fun (innerTag, encoded) =>
    blob .numericScaled scaled.length nullBitmap
      (UInt8.ofNat dscale :: innerTag.toU8 :: ofBytes encoded)

def compressText (lz4 : Lz4Flex) (forceTextFallback : Bool) (dt : Text)
    (values : List (Option Text)) : Option (List UInt8) :=
  if isNumeric dt && !forceTextFallback then
    match toUniformScaled values with
    | some (scaled, dscale) => scaledBlob scaled dscale
    | none => some (compressStrings lz4 (values.map (Option.map utf8Bytes)))
  else some (compressStrings lz4 (values.map (Option.map utf8Bytes)))

def compressTypedColumn (lz4 : Lz4Flex) (forceTextFallback : Bool) (dt : Text) :
    TypedColumn → Option (List UInt8)
  | .int16 values =>
      let (nonNull, nullBitmap) := extractNulls values
      integerBlob values.length nullBitmap
        (Integer.bestEncodingI32 (nonNull.map (BitVec.signExtend 32)))
  | .int32 values =>
      let (nonNull, nullBitmap) := extractNulls values
      integerBlob values.length nullBitmap (Integer.bestEncodingI32 nonNull)
  | .int64 values =>
      let (nonNull, nullBitmap) := extractNulls values
      if isTimestampOrDate dt then
        some (blob .gorilla values.length nullBitmap
          (ofBytes (GorillaTimestamps.encodeTimestamps nonNull)))
      else integerBlob values.length nullBitmap (Integer.bestEncodingI64 nonNull)
  | .float64 values =>
      let (nonNull, nullBitmap) := extractNulls values
      some (blob .gorilla values.length nullBitmap
        (ofBytes (GorillaFloats.encodeFloats nonNull)))
  | .float32 values =>
      let (nonNull, nullBitmap) := extractNulls values
      some (blob .gorilla values.length nullBitmap
        (ofBytes (GorillaFloats.encodeFloatsF32 nonNull)))
  | .bool values =>
      let (nonNull, nullBitmap) := extractNulls values
      some (blob .booleanBitmap values.length nullBitmap
        (ofBytes (BooleanBitmap.encode nonNull)))
  | .text values => compressText lz4 forceTextFallback dt values
  | .bytes values =>
      if dt == "jsonb".toList then
        some (compressStrings lz4 (values.map (Option.map ofBytes)))
      else compressBinaryValues lz4 (values.map (Option.map ofBytes))

/-! ## Reading -/

/-- Output functions of the types that are stored as bytes, and `to_string` of the floats. -/
structure TypeOut where
  jsonb : List UInt8 → Text
  uuid : List UInt8 → Text
  bytea : List UInt8 → Text
  inet : List UInt8 → Text
  cidr : List UInt8 → Text
  float64 : BitVec 64 → Text
  float32 : BitVec 32 → Text

/-- `&buf[off..off + len]` for each range. -/
def rangeBytes (decoded : List UInt8 × List (ℕ × ℕ)) : Option (List (List UInt8)) :=
  decoded.2.mapM fun range => Support.ByteSlices.slice decoded.1 range.1 (range.1 + range.2)

/-- The byte-level readers of the text tags. -/
def decodeByteValues (lz4 : Lz4Flex) (typeTag : CompressionType) (data : List UInt8)
    (nonNullCount : ℕ) : Option (List (List UInt8)) :=
  match typeTag with
  | .dictionary => Dictionary.decodeToByteSlices data nonNullCount
  | .dictionaryLz4 => do
      let normalized ← Dictionary.normalizeLz4 lz4 data
      Dictionary.decodeToByteSlices normalized nonNullCount
  | .lz4 => (Lz4.decodeToRanges lz4 data nonNullCount).bind rangeBytes
  | .lz4Blocked => (Lz4.decodeToRangesBlocked lz4 data nonNullCount none).bind rangeBytes
  | _ => none

def textTag : CompressionType → Option CompressionType
  | .binaryDictionary => some .dictionary
  | .binaryDictionaryLz4 => some .dictionaryLz4
  | .binaryLz4Blocked => some .lz4Blocked
  | _ => none

/-- The output function for a binary tag, by the name of the type. -/
def binaryOut (out : TypeOut) (dt : Text) : Option (List UInt8 → Text) :=
  if dt == "uuid".toList then some out.uuid
  else if dt == "bytea".toList then some out.bytea
  else if dt == "inet".toList then some out.inet
  else if dt == "cidr".toList then some out.cidr
  else none

/-- The integer tags, at the width of the values. -/
def decodeI64 (typeTag : CompressionType) (data : List UInt8) (count : ℕ) :
    Option (List (BitVec 64)) :=
  match typeTag with
  | .deltaVarint => Integer.decodeI64 (toBytes data) count
  | .constant => Bitpacked.decodeConstantI64 (toBytes data) count
  | .forBitpacked => Bitpacked.decodeForI64 (toBytes data) count
  | _ => none

def decodeI32 (typeTag : CompressionType) (data : List UInt8) (count : ℕ) :
    Option (List (BitVec 32)) :=
  match typeTag with
  | .deltaVarint => Integer.decodeI32 (toBytes data) count
  | .constant => Bitpacked.decodeConstantI32 (toBytes data) count
  | .forBitpacked => Bitpacked.decodeForI32 (toBytes data) count
  | _ => none

def isIntegerTag : CompressionType → Bool
  | .deltaVarint | .constant | .forBitpacked => true
  | _ => false

def decodeNumericScaled (data : List UInt8) (nonNullCount : ℕ) : Option (List Text) := do
  let dscale ← data[0]?
  let innerByte ← data[1]?
  let innerTag ← CompressionType.fromU8 innerByte
  let ints ← decodeI64 innerTag (data.drop 2) nonNullCount
  return ints.map fun m => formatNumericScaled m dscale.toNat

def decodeGorilla (out : TypeOut) (dt : Text) (data : List UInt8) (nonNullCount : ℕ) :
    Option (List Text) :=
  if isTimestampOrDate dt then do
    let timestamps ← GorillaTimestamps.decodeTimestamps (toBytes data) nonNullCount
    return timestamps.map fun usec =>
      if dt == "date".toList then usecToDateString usec.toInt else usecToTimestampString usec.toInt
  else if isReal dt then do
    let floats ← GorillaFloats.decodeFloatsF32 (toBytes data) nonNullCount
    return floats.map out.float32
  else do
    let floats ← GorillaFloats.decodeFloats (toBytes data) nonNullCount
    return floats.map out.float64

/-- The integer tags, at the width and with the downcast of the type. -/
def decodeIntegers (dt : Text) (typeTag : CompressionType) (data : List UInt8)
    (nonNullCount : ℕ) : Option (List Text) :=
  if isSmallint dt then do
    let ints ← decodeI32 typeTag data nonNullCount
    return ints.map fun v => intText (v.setWidth 16).toInt
  else if isInteger dt then do
    let ints ← decodeI32 typeTag data nonNullCount
    return ints.map fun v => intText v.toInt
  else do
    let ints ← decodeI64 typeTag data nonNullCount
    return ints.map fun v => intText v.toInt

/-- The last `match` of `decompress_column_values`. -/
def decodeByTag (lz4 : Lz4Flex) (out : TypeOut) (dt : Text) (typeTag : CompressionType)
    (data : List UInt8) (nonNullCount : ℕ) : Option (List Text) :=
  match typeTag with
  | .gorilla => decodeGorilla out dt data nonNullCount
  | .deltaVarint | .constant | .forBitpacked => decodeIntegers dt typeTag data nonNullCount
  | .dictionary => Dictionary.decode data nonNullCount
  | .dictionaryLz4 => do
      let normalized ← Dictionary.normalizeLz4 lz4 data
      Dictionary.decode normalized nonNullCount
  | .lz4 => Lz4.decode lz4 data nonNullCount
  | .lz4Blocked => Lz4.decodeBlocked lz4 data nonNullCount
  | .booleanBitmap => do
      let bools ← BooleanBitmap.decode (toBytes data) nonNullCount
      return bools.map fun b => if b then "t".toList else "f".toList
  | .binaryDictionary | .binaryDictionaryLz4 | .binaryLz4Blocked | .numericScaled => none

/-- The renderings of the values that are not NULL.  The types and tags that are not left to
the last `match` come first. -/
def decodeStrings (lz4 : Lz4Flex) (out : TypeOut) (dt : Text) (typeTag : CompressionType)
    (data : List UInt8) (nonNullCount : ℕ) : Option (List Text) :=
  if dt == "jsonb".toList then
    (decodeByteValues lz4 typeTag data nonNullCount).map (List.map out.jsonb)
  else
    match textTag typeTag with
    | some tag => do
        let render ← binaryOut out dt
        let slices ← decodeByteValues lz4 tag data nonNullCount
        return slices.map render
    | none =>
        if typeTag = .numericScaled then decodeNumericScaled data nonNullCount
        else if isTime dt && isIntegerTag typeTag then do
          let usecs ← decodeI64 typeTag data nonNullCount
          return usecs.map fun usec => usecToTimeString usec.toInt
        else decodeByTag lz4 out dt typeTag data nonNullCount

def decompressColumnValues (lz4 : Lz4Flex) (out : TypeOut) (bytes : List UInt8) (dt : Text) :
    Option (List (Option Text)) :=
  if bytes = [] then some []
  else do
    let cc ← CompressedColumn.fromBytes bytes
    let nonNullCount ← countNonNull cc.nullBitmap cc.rowCount
    let strings ← decodeStrings lz4 out dt cc.typeTag cc.data nonNullCount
    reinsertNulls strings cc.nullBitmap cc.rowCount

def decompressColumnByteValues (lz4 : Lz4Flex) (bytes : List UInt8) :
    Option (List (Option (List UInt8))) :=
  if bytes = [] then some []
  else do
    let cc ← CompressedColumn.fromBytes bytes
    let nonNullCount ← countNonNull cc.nullBitmap cc.rowCount
    let values ← decodeByteValues lz4 cc.typeTag cc.data nonNullCount
    reinsertNulls values cc.nullBitmap cc.rowCount

end DeltaX.Codec.ColumnBlobs
