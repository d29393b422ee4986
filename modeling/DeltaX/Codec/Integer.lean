import DeltaX.Codec.Bitpacked
import DeltaX.Codec.Varint
/-!
# Integer columns

Delta, zigzag and varint encoding of integer columns, and the choice among a constant, a
frame-of-reference and a delta-varint blob.  Deltas are 64-bit words that wrap; a 32-bit column
differs in the width of its values only.
-/

namespace DeltaX.Codec.Integer

open Support.ByteSlices Support.PackedBits Bitpacked Varint

variable {w : ℕ}

/-- `(val as i64) - (prev as i64)`. -/
def deltaOf (prev val : BitVec w) : BitVec 64 := val.signExtend 64 - prev.signExtend 64

def encodeDeltas (prev : BitVec w) : List (BitVec w) → List Byte
  | [] => []
  | val :: values => writeVarint (zigzagEncode (deltaOf prev val)) ++ encodeDeltas val values

/-- The first value raw, then the zigzag deltas as varints. -/
def encodeInt : List (BitVec w) → List Byte
  | [] => []
  | first :: rest => leBytes (w / 8) first ++ encodeDeltas first rest

/-- The decoder's loop: the running value is 64 bits wide at both widths. -/
def decodeDeltas (w : ℕ) (data : List Byte) : ℕ → ℕ → BitVec 64 → Option (List (BitVec w))
  | 0, _, _ => some []
  | count + 1, offset, prev => do
      let (zz, offset) ← readVarintAt data offset
      let prev := prev + zigzagDecode zz
      let values ← decodeDeltas w data count offset prev
      return prev.setWidth w :: values

def decodeInt (w : ℕ) (data : List Byte) : ℕ → Option (List (BitVec w))
  | 0 => some []
  | count + 1 => do
      let raw ← slice data 0 (w / 8)
      let first := ofLeBytes w raw
      let values ← decodeDeltas w data count (w / 8) (first.signExtend 64)
      return first :: values

def encodeI64 (values : List (BitVec 64)) : List Byte := encodeInt values

def decodeI64 (data : List Byte) (count : ℕ) : Option (List (BitVec 64)) := decodeInt 64 data count

def encodeI32 (values : List (BitVec 32)) : List Byte := encodeInt values

def decodeI32 (data : List Byte) (count : ℕ) : Option (List (BitVec 32)) := decodeInt 32 data count

/-! ## The choice of an encoding -/

/-- The shorter of the two general encodings, the frame of reference on a tie. -/
def shorterOf (forEncoded deltaEncoded : List Byte) : CompressionType × List Byte :=
  if forEncoded.length ≤ deltaEncoded.length then (.forBitpacked, forEncoded)
  else (.deltaVarint, deltaEncoded)

def bestEncoding : List (BitVec w) → Option (CompressionType × List Byte)
  | [] => some (.forBitpacked, [])
  | first :: rest =>
      if (first :: rest).all (· == first) then some (.constant, encodeConstant first)
      else do
        let forEncoded ← encodeFor (first :: rest)
        return shorterOf forEncoded (encodeInt (first :: rest))

def bestEncodingI32 (values : List (BitVec 32)) : Option (CompressionType × List Byte) :=
  bestEncoding values

def bestEncodingI64 (values : List (BitVec 64)) : Option (CompressionType × List Byte) :=
  bestEncoding values

def decodeTagged (w : ℕ) (aligned : List ℕ) (tag : CompressionType) (data : List Byte)
    (count : ℕ) : Option (List (BitVec w)) :=
  match tag with
  | .constant => decodeConstant w data count
  | .forBitpacked => decodeFor w aligned data count
  | .deltaVarint => decodeInt w data count
  | _ => none

/-! ## Deltas read back -/

theorem setWidth_signExtend_64 (h64 : w ≤ 64) (v : BitVec w) :
    (v.signExtend 64).setWidth w = v := by
  ext i hi
  rw [← BitVec.getLsbD_eq_getElem, ← BitVec.getLsbD_eq_getElem, BitVec.getLsbD_setWidth,
    BitVec.getLsbD_signExtend]
  simp only [hi, show i < 64 by omega, decide_true, Bool.true_and, if_true]

theorem decodeDeltas_encodeDeltas (h64 : w ≤ 64) (values : List (BitVec w)) {data : List Byte}
    (prev : BitVec w) (offset : ℕ) (hdata : data.drop offset = encodeDeltas prev values) :
    decodeDeltas w data values.length offset (prev.signExtend 64) = some values := by
  induction values generalizing prev offset with
  | nil => rfl
  | cons val values ih =>
      rw [encodeDeltas] at hdata
      have hread := readVarintAt_writeVarint hdata
      have hrest : data.drop
          (offset + (writeVarint (zigzagEncode (deltaOf prev val))).length) =
            encodeDeltas val values := by
        rw [← List.drop_drop, hdata, List.drop_left]
      have hvalue : prev.signExtend 64 + deltaOf prev val = val.signExtend 64 := by
        rw [deltaOf, BitVec.add_comm, BitVec.sub_add_cancel]
      have hrun := ih val _ hrest
      rw [List.length_cons, decodeDeltas, hread]
      simp only [bind, Option.bind, zigzagDecode_zigzagEncode, hvalue, hrun,
        setWidth_signExtend_64 h64]
      rfl

theorem slice_leBytes (v : BitVec w) (rest : List Byte) :
    slice (leBytes (w / 8) v ++ rest) 0 (w / 8) =
      some ((leBytes (w / 8) v ++ rest).take (w / 8)) := by
  apply slice_zero
  rw [List.length_append, length_leBytes]
  omega

theorem decodeInt_encodeInt (h64 : w ≤ 64) (hbytes : w = 8 * (w / 8))
    (values : List (BitVec w)) :
    decodeInt w (encodeInt values) values.length = some values := by
  cases values with
  | nil => rfl
  | cons first rest =>
      have hrest : (leBytes (w / 8) first ++ encodeDeltas first rest).drop (w / 8) =
          encodeDeltas first rest := by
        rw [List.drop_append, List.drop_of_length_le (by rw [length_leBytes]), length_leBytes,
          Nat.sub_self]
        rfl
      have hrun := decodeDeltas_encodeDeltas h64 rest first (w / 8) hrest
      rw [encodeInt, List.length_cons, decodeInt, slice_leBytes]
      simp only [bind, Option.bind, ofLeBytes_take_leBytes hbytes, hrun]
      rfl

/-! ## The chosen encoding read back -/

theorem decodeConstant_encodeConstant (hbytes : w = 8 * (w / 8)) (v : BitVec w) (count : ℕ) :
    decodeConstant w (encodeConstant v) count = some (List.replicate count v) := by
  have hslice := slice_leBytes v []
  have hback := ofLeBytes_take_leBytes hbytes v []
  rw [List.append_nil] at hslice hback
  rw [decodeConstant, encodeConstant, hslice]
  simp only [bind, Option.bind, hback]
  rfl

theorem eq_replicate_of_all {first : BitVec w} {rest : List (BitVec w)}
    (hall : (first :: rest).all (· == first) = true) :
    List.replicate (first :: rest).length first = first :: rest := by
  rw [eq_comm, List.eq_replicate_iff]
  refine ⟨rfl, fun v hv => ?_⟩
  exact beq_iff_eq.mp (List.all_eq_true.mp hall v hv)

/-- What a chosen payload owes: its own decoder returns the values, and neither general encoding
is shorter. -/
structure Chosen (w : ℕ) (aligned : List ℕ) (values : List (BitVec w)) (tag : CompressionType)
    (payload : List Byte) : Prop where
  decoded : decodeTagged w aligned tag payload values.length = some values
  leDelta : payload.length ≤ (encodeInt values).length
  leFor : ∃ forEncoded, encodeFor values = some forEncoded ∧
    payload.length ≤ forEncoded.length

theorem length_encodeFor {first : BitVec w} {rest : List (BitVec w)} {data : List Byte}
    (hdata : encodeFor (first :: rest) = some data) : w / 8 ≤ data.length := by
  obtain ⟨packed, -, hcode⟩ := Option.bind_eq_some_iff.mp hdata
  have hlen := congrArg List.length (Option.some.inj hcode)
  rw [List.length_append, length_leBytes] at hlen
  omega

/-- The choice is always made, and made well. -/
theorem bestEncoding_chosen (hw : 8 < w) (h64 : w ≤ 64) (hbytes : w = 8 * (w / 8))
    {aligned : List ℕ} (hwhole : WholeBytes aligned) (values : List (BitVec w)) :
    ∃ tag payload, bestEncoding values = some (tag, payload) ∧
      Chosen w aligned values tag payload := by
  obtain ⟨forEncoded, hfor, hforBack⟩ := decodeFor_encodeFor hw h64 hbytes hwhole values
  have hdeltaBack := decodeInt_encodeInt h64 hbytes values
  cases values with
  | nil =>
      exact ⟨.forBitpacked, [], rfl, hforBack, Nat.zero_le _, [], rfl, le_refl _⟩
  | cons first rest =>
      by_cases hall : (first :: rest).all (· == first) = true
      · refine ⟨.constant, encodeConstant first, ?_, ?_, ?_, forEncoded, hfor, ?_⟩
        · rw [bestEncoding, if_pos hall]
        · rw [← eq_replicate_of_all hall, List.length_replicate]
          exact decodeConstant_encodeConstant hbytes first _
        · rw [encodeConstant, encodeInt, List.length_append]
          exact Nat.le_add_right _ _
        · rw [encodeConstant, length_leBytes]
          exact length_encodeFor hfor
      · have hchoice : bestEncoding (first :: rest) =
            some (shorterOf forEncoded (encodeInt (first :: rest))) := by
          rw [bestEncoding, if_neg hall, hfor]
          rfl
        by_cases hshort : forEncoded.length ≤ (encodeInt (first :: rest)).length
        · refine ⟨.forBitpacked, forEncoded, ?_, hforBack, hshort, forEncoded, hfor, le_refl _⟩
          rw [hchoice, shorterOf, if_pos hshort]
        · refine ⟨.deltaVarint, encodeInt (first :: rest), ?_, hdeltaBack, le_refl _,
            forEncoded, hfor, by omega⟩
          rw [hchoice, shorterOf, if_neg hshort]

/-- Both integer widths are encoded losslessly and no longer than either alternative; a varint
is read back exactly, and wherever the fast reader returns the reference reader agrees. -/
theorem bestEncoding_lossless (values : List (BitVec 32)) (wideValues : List (BitVec 64))
    (v : BitVec 64) (before rest : List Byte) :
    (∃ tag payload, bestEncodingI32 values = some (tag, payload) ∧
      Chosen 32 alignedU32 values tag payload) ∧
    (∃ tag payload, bestEncodingI64 wideValues = some (tag, payload) ∧
      Chosen 64 alignedU64 wideValues tag payload) ∧
    readVarintAt (before ++ writeVarint v ++ rest) before.length =
      some (v, before.length + (writeVarint v).length) ∧
    readVarint (writeVarint v ++ rest) = (v, (writeVarint v).length) ∧
    ∀ (data : List Byte) (offset : ℕ) (u : BitVec 64) (next : ℕ),
      readVarintAt data offset = some (u, next) →
        readVarint (data.drop offset) = (u, next - offset) := by
  refine ⟨bestEncoding_chosen (by decide) (by decide) (by decide) wholeBytes_alignedU32 values,
    bestEncoding_chosen (by decide) (by decide) (by decide) wholeBytes_alignedU64 wideValues,
    ?_, readVarint_writeVarint v rest, ?_⟩
  · apply readVarintAt_writeVarint
    rw [List.append_assoc, List.drop_left]
  · intro data offset u next hrun
    exact readVarint_of_readVarintAt hrun

end DeltaX.Codec.Integer
