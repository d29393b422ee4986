import DeltaX.Support.LittleEndian
/-!
# Slices

A slice out of range is `none`.  What a parser of bytes meets at an offset is stated by what is
left of the data there.
-/

namespace DeltaX.Support.ByteSlices

open LittleEndian

/-- `data[lo..hi]`. -/
def slice {α : Type*} (data : List α) (lo hi : ℕ) : Option (List α) :=
  if lo ≤ hi ∧ hi ≤ data.length then some ((data.drop lo).take (hi - lo)) else none

section slice

variable {α : Type*} {data : List α} {lo hi : ℕ}

theorem slice_of_le (lo : ℕ) (hle : lo ≤ hi) (h : hi ≤ data.length) :
    slice data lo hi = some ((data.drop lo).take (hi - lo)) := if_pos ⟨hle, h⟩

theorem slice_zero (h : hi ≤ data.length) : slice data 0 hi = some (data.take hi) :=
  slice_of_le 0 (Nat.zero_le hi) h

theorem slice_eq_none_of_lt (h : data.length < hi) : slice data lo hi = none :=
  if_neg fun hin => Nat.not_le_of_lt h hin.2

end slice

/-- The little-endian number of the `n` bytes at `off`. -/
def leAt (n : ℕ) (data : List UInt8) (off : ℕ) : Option ℕ := (slice data off (off + n)).map ofLe

/-- From `off` on the data reads `rest`. -/
def At (data : List UInt8) (off : ℕ) (rest : List UInt8) : Prop :=
  off ≤ data.length ∧ data.drop off = rest

theorem at_zero (data : List UInt8) : At data 0 data := ⟨Nat.zero_le _, rfl⟩

theorem at_append (before rest : List UInt8) : At (before ++ rest) before.length rest := by
  constructor
  · rw [List.length_append]
    omega
  · exact List.drop_left

theorem At.length {data rest : List UInt8} {off : ℕ} (h : At data off rest) :
    data.length = off + rest.length := by
  have hlen := congrArg List.length h.2
  rw [List.length_drop] at hlen
  have hoff := h.1
  omega

/-- Past a piece the data reads what follows it. -/
theorem At.skip {data piece rest : List UInt8} {off : ℕ} (h : At data off (piece ++ rest)) :
    At data (off + piece.length) rest := by
  have hlen := h.length
  rw [List.length_append] at hlen
  constructor
  · omega
  · rw [← List.drop_drop, h.2, List.drop_left]

theorem At.slice {data piece rest : List UInt8} {off : ℕ} (h : At data off (piece ++ rest)) :
    slice data off (off + piece.length) = some piece := by
  have hlen := h.length
  rw [List.length_append] at hlen
  rw [ByteSlices.slice, if_pos ⟨by omega, by omega⟩, h.2, Nat.add_sub_cancel_left,
    List.take_left]

theorem At.slice_end {data rest : List UInt8} {off : ℕ} (h : At data off rest) :
    ByteSlices.slice data off data.length = some rest := by
  have hlen := h.length
  rw [ByteSlices.slice, if_pos ⟨h.1, le_rfl⟩, h.2, List.take_of_length_le (by omega)]

theorem At.leAt {data rest : List UInt8} {off n v : ℕ} (h : At data off (toLe n v ++ rest))
    (hv : v < 256 ^ n) : leAt n data off = some v := by
  have hslice := h.slice
  rw [length_toLe] at hslice
  rw [ByteSlices.leAt, hslice, Option.map_some, ofLe_toLe hv]

theorem At.get {data rest : List UInt8} {off : ℕ} {b : UInt8} (h : At data off (b :: rest)) :
    data[off]? = some b := by
  have hhead := congrArg (fun bytes => bytes[0]?) h.2
  simpa using hhead

end DeltaX.Support.ByteSlices
