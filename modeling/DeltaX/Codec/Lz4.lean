import DeltaX.Codec.Lz4Flex
import DeltaX.Support.Chunks
import DeltaX.Support.Utf8
/-!
# LZ4 text columns

Strings with a length in front, compressed as a whole or in blocks of rows.  The selective
reader of the blocked format decompresses only the blocks with a selected row into one buffer
and returns where each row's bytes are.  A slice out of range and a block the crate rejects
panic: the readers are `none` there.
-/

namespace DeltaX.Codec.Lz4

open Support.LittleEndian Support.ByteSlices Support.Utf8 Support.Chunks

/-! ## Packed strings -/

def packString (s : List UInt8) : List UInt8 := toLe 4 s.length ++ s

def pack (values : List (List UInt8)) : List UInt8 := values.flatMap packString

/-- The loop over the lengths: where each string's bytes are. -/
def stringRanges (raw : List UInt8) : ℕ → ℕ → Option (List (ℕ × ℕ))
  | 0, _ => some []
  | count + 1, offset => do
      let len ← leAt 4 raw offset
      let ranges ← stringRanges raw count (offset + 4 + len)
      return (offset + 4, len) :: ranges

/-- The same loop, with the bytes validated as text. -/
def readStrings (raw : List UInt8) : ℕ → ℕ → Option (List (List Char))
  | 0, _ => some []
  | count + 1, offset => do
      let len ← leAt 4 raw offset
      let bytes ← slice raw (offset + 4) (offset + 4 + len)
      let s ← fromUtf8 bytes
      let values ← readStrings raw count (offset + 4 + len)
      return s :: values

/-! ## The whole column at once -/

def encode (lz4 : Lz4Flex) (values : List (List UInt8)) : List UInt8 :=
  if values = [] then [] else lz4.compressPrependSize (pack values)

def decodeToRanges (lz4 : Lz4Flex) (data : List UInt8) (count : ℕ) :
    Option (List UInt8 × List (ℕ × ℕ)) :=
  if count = 0 then some ([], [])
  else do
    let raw ← lz4.decompressSizePrepended data
    let ranges ← stringRanges raw count 0
    return (raw, ranges)

def decode (lz4 : Lz4Flex) (data : List UInt8) (count : ℕ) : Option (List (List Char)) :=
  if count = 0 then some []
  else do
    let raw ← lz4.decompressSizePrepended data
    readStrings raw count 0

/-! ## Blocks of rows -/

def writeOffsets (offset : ℕ) : List (List UInt8) → List UInt8
  | [] => toLe 4 offset
  | block :: blocks => toLe 4 offset ++ writeOffsets (offset + block.length) blocks

def headerSize (numBlocks : ℕ) : ℕ := 2 + 2 + 4 * (numBlocks + 1)

def encodeBlocked (lz4 : Lz4Flex) (values : List (List UInt8)) (blockSize : ℕ) : List UInt8 :=
  if values = [] then []
  else
    let numBlocks := divCeil values.length blockSize
    let compressedBlocks := (chunks blockSize values).map (encode lz4)
    toLe 2 blockSize ++ toLe 2 numBlocks ++
      writeOffsets (headerSize numBlocks) compressedBlocks ++ compressedBlocks.flatten

def blockOffset (data : List UInt8) (blockIdx : ℕ) : Option ℕ := leAt 4 data (4 + blockIdx * 4)

/-- A block's uncompressed size: the slice goes on to the end of the data. -/
def blockSizeAt (lz4 : Lz4Flex) (data : List UInt8) (i : ℕ) : Option ℕ := do
  let offStart ← blockOffset data i
  let bytes ← slice data offStart data.length
  let sized ← lz4.uncompressedSize bytes
  return sized.1

def blockBytes (lz4 : Lz4Flex) (data : List UInt8) (i : ℕ) : Option (ℕ × List UInt8) := do
  let offStart ← blockOffset data i
  let offEnd ← blockOffset data (i + 1)
  let bytes ← slice data offStart offEnd
  lz4.uncompressedSize bytes

/-- `xs[pos..pos + ys.len()]` becomes `ys`. -/
def overwrite {α : Type} (xs : List α) (pos : ℕ) (ys : List α) : List α :=
  xs.take pos ++ ys ++ xs.drop (pos + ys.length)

def decompressBlock (lz4 : Lz4Flex) (data : List UInt8) (buf : List UInt8 × ℕ) (i : ℕ) :
    Option (List UInt8 × ℕ) := do
  let sized ← blockBytes lz4 data i
  let _ ← slice buf.1 buf.2 (buf.2 + sized.1)
  let bytes ← lz4.decompressInto sized.2 sized.1
  return (overwrite buf.1 buf.2 bytes, buf.2 + sized.1)

def decodeBlocked (lz4 : Lz4Flex) (data : List UInt8) (count : ℕ) :
    Option (List (List Char)) :=
  if count = 0 then some []
  else do
    let numBlocks ← leAt 2 data 2
    let sizes ← (List.range numBlocks).mapM (blockSizeAt lz4 data)
    let buf ← (List.range numBlocks).foldlM (decompressBlock lz4 data)
      (List.replicate sizes.sum 0, 0)
    readStrings buf.1 count 0

/-! ## Selected rows -/

/-- Whether a row of `sel[row..row + n]` is selected. -/
def anySelected (selection : Option (List Bool)) (row n : ℕ) : Option Bool :=
  match selection with
  | none => some true
  | some sel => if row + n ≤ sel.length then some (((sel.drop row).take n).any id) else none

def neededSize (lz4 : Lz4Flex) (data : List UInt8) (i : ℕ) (need : Bool) : Option ℕ :=
  if need then blockSizeAt lz4 data i else some 0

structure Sizing where
  blockNeeded : List Bool
  totalUncompressed : ℕ
  globalRow : ℕ

def sizeBlock (lz4 : Lz4Flex) (data : List UInt8) (count blockSize : ℕ)
    (selection : Option (List Bool)) (st : Sizing) (i : ℕ) : Option Sizing := do
  let blockCount := min (count - st.globalRow) blockSize
  let need ← anySelected selection st.globalRow blockCount
  let uncompSize ← neededSize lz4 data i need
  return { blockNeeded := st.blockNeeded ++ [need],
           totalUncompressed := st.totalUncompressed + uncompSize,
           globalRow := st.globalRow + blockCount }

structure Filling where
  mergedBuf : List UInt8
  ranges : List (ℕ × ℕ)
  bufPos : ℕ
  globalRow : ℕ

def fillBlock (lz4 : Lz4Flex) (data : List UInt8) (count blockSize : ℕ) (st : Filling)
    (block : Bool × ℕ) : Option Filling :=
  let blockCount := min (count - st.globalRow) blockSize
  if block.1 then do
    let buf ← decompressBlock lz4 data (st.mergedBuf, st.bufPos) block.2
    let found ← stringRanges buf.1 blockCount st.bufPos
    return { mergedBuf := buf.1, ranges := overwrite st.ranges st.globalRow found,
             bufPos := buf.2, globalRow := st.globalRow + blockCount }
  else some { st with globalRow := st.globalRow + blockCount }

def decodeToRangesBlocked (lz4 : Lz4Flex) (data : List UInt8) (count : ℕ)
    (selection : Option (List Bool)) : Option (List UInt8 × List (ℕ × ℕ)) :=
  if count = 0 then some ([], [])
  else do
    let blockSize ← leAt 2 data 0
    let numBlocks ← leAt 2 data 2
    let sizing ← (List.range numBlocks).foldlM (sizeBlock lz4 data count blockSize selection)
      { blockNeeded := [], totalUncompressed := 0, globalRow := 0 }
    let filled ← sizing.blockNeeded.zipIdx.foldlM (fillBlock lz4 data count blockSize)
      { mergedBuf := List.replicate sizing.totalUncompressed 0,
        ranges := List.replicate count (0, 0), bufPos := 0, globalRow := 0 }
    return (filled.mergedBuf, filled.ranges)

end DeltaX.Codec.Lz4
