import DeltaX.Support.ByteSlices
/-!
# LZ4

The crate `lz4_flex` is not part of the repository: its functions are a parameter here, and
what the codecs rely on is a hypothesis about them.
-/

namespace DeltaX.Codec

open Support.LittleEndian

/-- The functions of the crate the codecs call; an `Err` is `none`. -/
structure Lz4Flex where
  compressPrependSize : List UInt8 → List UInt8
  decompressSizePrepended : List UInt8 → Option (List UInt8)
  /-- The size in front, and the rest. -/
  uncompressedSize : List UInt8 → Option (ℕ × List UInt8)
  /-- What a slice of the given length holds afterwards. -/
  decompressInto : List UInt8 → ℕ → Option (List UInt8)

/-- The documented behaviour: the size goes in front as a `u32`, and every decompressor undoes
the compressor on inputs whose size it holds. -/
structure Lz4Flex.Inverts (lz4 : Lz4Flex) : Prop where
  compress_ne_nil : ∀ raw, lz4.compressPrependSize raw ≠ []
  decompress : ∀ raw, raw.length < 2 ^ 32 →
    lz4.decompressSizePrepended (lz4.compressPrependSize raw) = some raw
  block : ∀ raw, raw.length < 2 ^ 32 → ∃ payload,
    (∀ rest, lz4.uncompressedSize (lz4.compressPrependSize raw ++ rest) =
      some (raw.length, payload ++ rest)) ∧
    lz4.decompressInto payload raw.length = some raw

namespace Literals

def lengthBytes : ℕ → ℕ → List UInt8
  | 0, _ => []
  | fuel + 1, n => if n < 255 then [UInt8.ofNat n] else 255 :: lengthBytes fuel (n - 255)

/-- A block of literals only, as the compressor writes inputs too short for a match. -/
def block (raw : List UInt8) : List UInt8 :=
  if raw.length < 15 then UInt8.ofNat (16 * raw.length) :: raw
  else 0xF0 :: (lengthBytes raw.length (raw.length - 15) ++ raw)

def literals (bytes : List UInt8) (n : ℕ) : Option (List UInt8) :=
  if n ≤ bytes.length then some (bytes.drop (bytes.length - n)) else none

def uncompressedSize (bytes : List UInt8) : Option (ℕ × List UInt8) :=
  if 4 ≤ bytes.length then some (ofLe (bytes.take 4), bytes.drop 4) else none

def lz4 : Lz4Flex where
  compressPrependSize raw := toLe 4 raw.length ++ block raw
  decompressSizePrepended bytes :=
    (uncompressedSize bytes).bind fun sized => literals sized.2 sized.1
  uncompressedSize := uncompressedSize
  decompressInto := literals

theorem block_eq_append (raw : List UInt8) : ∃ token, block raw = token ++ raw := by
  unfold block
  by_cases h : raw.length < 15
  · exact ⟨[UInt8.ofNat (16 * raw.length)], if_pos h⟩
  · refine ⟨0xF0 :: lengthBytes raw.length (raw.length - 15), ?_⟩
    rw [if_neg h, List.cons_append]

theorem length_compress_of_lt {raw : List UInt8} (h : raw.length < 15) :
    (lz4.compressPrependSize raw).length = 5 + raw.length := by
  show (toLe 4 raw.length ++ block raw).length = 5 + raw.length
  rw [block, if_pos h, List.length_append, length_toLe, List.length_cons]
  omega

theorem literals_block (raw : List UInt8) : literals (block raw) raw.length = some raw := by
  obtain ⟨token, hblock⟩ := block_eq_append raw
  have hlen : (token ++ raw).length - raw.length = token.length := by
    rw [List.length_append]
    omega
  rw [hblock, literals, hlen, List.drop_left, if_pos]
  rw [List.length_append]
  omega

theorem uncompressedSize_compress {raw : List UInt8} (h : raw.length < 2 ^ 32)
    (rest : List UInt8) :
    uncompressedSize (toLe 4 raw.length ++ block raw ++ rest) =
      some (raw.length, block raw ++ rest) := by
  have hle : 4 ≤ (toLe 4 raw.length ++ block raw ++ rest).length := by
    rw [List.length_append, List.length_append, length_toLe]
    omega
  rw [uncompressedSize, if_pos hle, List.append_assoc,
    List.take_append_of_le_length (by rw [length_toLe]),
    List.take_of_length_le (by rw [length_toLe]), ofLe_toLe h, List.drop_append,
    List.drop_of_length_le (by rw [length_toLe]), length_toLe]
  rfl

/-- Literal blocks are read back. -/
theorem lz4_inverts : lz4.Inverts where
  compress_ne_nil raw := by
    intro hnil
    have hlen := congrArg List.length hnil
    simp only [lz4, List.length_append, length_toLe, List.length_nil] at hlen
    omega
  decompress raw h := by
    have hsize := uncompressedSize_compress h []
    rw [List.append_nil, List.append_nil] at hsize
    exact (congrArg (fun sized => sized.bind fun s => literals s.2 s.1) hsize).trans
      (literals_block raw)
  block raw h := ⟨block raw, uncompressedSize_compress h, literals_block raw⟩

end Literals

end DeltaX.Codec
