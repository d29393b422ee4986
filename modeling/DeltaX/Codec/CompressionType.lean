import Mathlib.Data.BitVec
/-!
# Codec tags

The byte of a blob and the tag that names its codec.
-/

namespace DeltaX.Codec

/-- A `u8`. -/
abbrev Byte : Type := BitVec 8

inductive CompressionType where
  | gorilla
  | deltaVarint
  | dictionary
  | lz4
  | booleanBitmap
  | lz4Blocked
  | constant
  | forBitpacked
  | dictionaryLz4
  | binaryDictionary
  | binaryDictionaryLz4
  | binaryLz4Blocked
  | numericScaled
deriving DecidableEq, Repr

end DeltaX.Codec
