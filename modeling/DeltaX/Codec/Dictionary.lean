import DeltaX.Codec.Lz4Flex
import DeltaX.Support.Utf8
import Mathlib.Data.List.Nodup
/-!
# Dictionary columns

Strings stored once each, and one fixed-width index a row.  `encode` keeps the entries in the
order of their first occurrence, `encode_lz4` sorts and compresses them; five readers share the
format.  An index out of a slice, or a text entry that is not UTF-8, panics: the readers are
`none` there.
-/

namespace DeltaX.Codec.Dictionary

open Support.LittleEndian Support.ByteSlices Support.Utf8

abbrev Str : Type := List UInt8

/-! ## Writing -/

/-- One round of the loop over the distinct strings. -/
def addUnique (uniq : List Str) (v : Str) : List Str := if v ∈ uniq then uniq else uniq ++ [v]

/-- The distinct strings, or `none` at the early exit. -/
def collectUnique : List Str → List Str → Option (List Str)
  | uniq, [] => some uniq
  | uniq, v :: values =>
      if 65535 < (addUnique uniq v).length then none
      else collectUnique (addUnique uniq v) values

def shouldUseDictionary (values : List Str) : Bool :=
  if values = [] then true
  else
    match collectUnique [] values with
    | none => false
    | some uniq =>
        decide (uniq.length < 65536) && decide (uniq.length ≤ max (values.length / 2) 1)

def dictEntries (values : List Str) : List Str := values.foldl addUnique []

def indexWidth (dictSize : ℕ) : ℕ := if dictSize ≤ 255 then 1 else 2

/-- `position(|s| s.is_empty())`, or the sentinel. -/
def emptyStringIdx (entries : List Str) : ℕ :=
  ((entries.findIdx? List.isEmpty).map (· % 65536)).getD 0xFFFF

def writeEntry (entry : Str) : List UInt8 := toLe 4 entry.length ++ entry

def writeIndex (width idx : ℕ) : List UInt8 := if width = 1 then [UInt8.ofNat idx] else toLe 2 idx

/-- The size, the index width and the index of the empty string. -/
def writeHeader (entries : List Str) : List UInt8 :=
  toLe 4 entries.length ++ UInt8.ofNat (indexWidth entries.length) ::
    toLe 2 (emptyStringIdx entries)

def emptyHeader : List UInt8 := toLe 4 0 ++ 1 :: toLe 2 0xFFFF

def encode (values : List Str) : List UInt8 :=
  if values = [] then emptyHeader
  else
    let entries := dictEntries values
    writeHeader entries ++ entries.flatMap writeEntry ++
      values.flatMap fun v =>
        writeIndex (indexWidth entries.length) (entries.idxOf v % 65536)

/-- `sort_unstable` on distinct strings. -/
def sortEntries (entries : List Str) : List Str := entries.mergeSort fun a b => decide (a ≤ b)

/-- `remap`: where each entry went. -/
def remapOf (entries sorted : List Str) : List ℕ :=
  entries.map fun entry => sorted.idxOf entry % 65536

def encodeLz4 (lz4 : Lz4Flex) (values : List Str) : List UInt8 :=
  if values = [] then emptyHeader ++ toLe 4 0
  else
    let entries := dictEntries values
    let sorted := sortEntries entries
    let remap := remapOf entries sorted
    let compressed := lz4.compressPrependSize (sorted.flatMap writeEntry)
    writeHeader sorted ++ toLe 4 compressed.length ++ compressed ++
      values.flatMap fun v =>
        writeIndex (indexWidth sorted.length) (remap.getD (entries.idxOf v % 65536) 0)

/-! ## Reading -/

structure DictHeader (α : Type) where
  dict : List α
  indexWidth : ℕ
  emptyStringIdx : ℕ
  indicesStart : ℕ

/-- The loop over the entries; `view` is what an entry becomes. -/
def parseEntries {α : Type} (view : Str → Option α) (data : List UInt8) :
    ℕ → ℕ → Option (List α × ℕ)
  | 0, offset => some ([], offset)
  | dictSize + 1, offset => do
      let len ← leAt 4 data offset
      let raw ← slice data (offset + 4) (offset + 4 + len)
      let entry ← view raw
      let (entries, offset) ← parseEntries view data dictSize (offset + 4 + len)
      return (entry :: entries, offset)

def parseHeaderWith {α : Type} (view : Str → Option α) (data : List UInt8) :
    Option (DictHeader α) := do
  let dictSize ← leAt 4 data 0
  let width ← data[4]?
  let emptyIdx ← leAt 2 data 5
  let (dict, offset) ← parseEntries view data dictSize 7
  return { dict, indexWidth := width.toNat, emptyStringIdx := emptyIdx, indicesStart := offset }

def parseHeader (data : List UInt8) : Option (DictHeader (List Char)) :=
  parseHeaderWith fromUtf8 data

def parseHeaderBytes (data : List UInt8) : Option (DictHeader Str) := parseHeaderWith some data

def readIndex (data : List UInt8) (indicesStart width row : ℕ) : Option ℕ :=
  let pos := indicesStart + row * width
  if width = 1 then data[pos]?.map UInt8.toNat else leAt 2 data pos

def readIndices (data : List UInt8) (indicesStart width count : ℕ) : Option (List ℕ) :=
  (List.range count).mapM (readIndex data indicesStart width)

def decodeWith {α : Type} (view : Str → Option α) (data : List UInt8) (count : ℕ) :
    Option (List α) :=
  if count = 0 then some []
  else do
    let hdr ← parseHeaderWith view data
    let indices ← readIndices data hdr.indicesStart hdr.indexWidth count
    indices.mapM fun idx => hdr.dict[idx]?

def decodeToByteSlices (data : List UInt8) (count : ℕ) : Option (List Str) :=
  decodeWith some data count

def decode (data : List UInt8) (count : ℕ) : Option (List (List Char)) :=
  decodeWith fromUtf8 data count

/-- All entries in one buffer, with a 32-bit offset and length each. -/
structure FlatDict where
  buf : List UInt8
  entryRanges : List (ℕ × ℕ)

def asU32 (n : ℕ) : ℕ := n % 2 ^ 32

def entryRangesIn (blob : List UInt8) : ℕ → ℕ → Option (List (ℕ × ℕ))
  | 0, _ => some []
  | dictSize + 1, off => do
      let len ← leAt 4 blob off
      let ranges ← entryRangesIn blob dictSize (off + 4 + len)
      return (asU32 (off + 4), asU32 len) :: ranges

/-- `(o + l) as usize` of the last range: the sum wraps at 32 bits. -/
def entriesLen (ranges : List (ℕ × ℕ)) : ℕ := (ranges.getLast?.map fun r => asU32 (r.1 + r.2)).getD 0

def decodeFlat (data : List UInt8) (count : ℕ) : Option (FlatDict × List ℕ) := do
  let dictSize ← leAt 4 data 0
  let width ← data[4]?
  let blob ← slice data 7 data.length
  let ranges ← entryRangesIn blob dictSize 0
  let buf ← slice data 7 (7 + entriesLen ranges)
  let indices ← readIndices data (7 + entriesLen ranges) width.toNat count
  return ({ buf, entryRanges := ranges }, indices)

/-- The entries blob of a `DictionaryLz4` payload. -/
def decompressEntries (lz4 : Lz4Flex) (data : List UInt8) (lz4BlobLen : ℕ) :
    Option (List UInt8) :=
  if 0 < lz4BlobLen then (slice data 11 (11 + lz4BlobLen)).bind lz4.decompressSizePrepended
  else some []

def decodeFlatLz4 (lz4 : Lz4Flex) (data : List UInt8) (count : ℕ) :
    Option (FlatDict × List ℕ) := do
  let dictSize ← leAt 4 data 0
  let width ← data[4]?
  let lz4BlobLen ← leAt 4 data 7
  let buf ← decompressEntries lz4 data lz4BlobLen
  let ranges ← entryRangesIn buf dictSize 0
  let indices ← readIndices data (11 + lz4BlobLen) width.toNat count
  return ({ buf, entryRanges := ranges }, indices)

def normalizeLz4 (lz4 : Lz4Flex) (data : List UInt8) : Option (List UInt8) := do
  let dictSizeBytes ← slice data 0 4
  let width ← data[4]?
  let emptyStringIdxBytes ← slice data 5 7
  let lz4BlobLen ← leAt 4 data 7
  let decompressed ← decompressEntries lz4 data lz4BlobLen
  let indices ← slice data (11 + lz4BlobLen) data.length
  return dictSizeBytes ++ width :: emptyStringIdxBytes ++ decompressed ++ indices

def FlatDict.entry (self : FlatDict) (idx : ℕ) : Option Str := do
  let range ← self.entryRanges[idx]?
  slice self.buf range.1 (range.1 + range.2)

def flatRows (flat : FlatDict × List ℕ) : Option (List Str) := flat.2.mapM flat.1.entry

def checkNeEmpty (data : List UInt8) (count : ℕ) : Option (List Bool) :=
  if count = 0 then some []
  else do
    let hdr ← parseHeader data
    if hdr.emptyStringIdx = 0xFFFF then some []
    else
      let indices ← readIndices data hdr.indicesStart hdr.indexWidth count
      return indices.map fun idx => decide (idx ≠ hdr.emptyStringIdx)

end DeltaX.Codec.Dictionary
