import DeltaX.Column.Typed
import DeltaX.Support.IeeeOrder
import Mathlib.Data.BitVec
import Mathlib.Tactic.Linarith
/-!
# Order-preserving encodings

The `_min` and `_max` of a column are stored as `i64` keys.  Integers are their
own keys, temporal values are counted from the Unix epoch, and a float is
turned into the signed integer with its place in the total order of patterns.
-/

namespace DeltaX.Stats.Encoding

open Column Support.IeeeOrder Support.KeySpan

/-- The sign-dependent flip shared by `encode_f64_to_i64` and
`encode_f32_to_i64`, read back as a signed integer. -/
def encodeFloatKey {w : ℕ} (bits : BitVec (w + 1)) : ℤ :=
  let sign : BitVec (w + 1) := 1#(w + 1) <<< w
  let unsignedKey := if bits &&& sign ≠ 0#(w + 1) then ~~~bits else bits ^^^ sign
  (unsignedKey ^^^ sign).toInt

def encodeF64ToI64 (bits : BitVec 64) : ℤ := encodeFloatKey bits

/-- `encode_f32_to_i64`; the final widening keeps the signed value. -/
def encodeF32ToI64 (bits : BitVec 32) : ℤ := encodeFloatKey bits

/-- Timestamps are stored from the Unix epoch on; the `i64` addition wraps. -/
def encodeTimestamp (usec : BitVec 64) : BitVec 64 := usec + pgEpochOffsetUsec

/-- A date, 32 bits of days, becomes Unix-epoch microseconds; the `i64`
arithmetic wraps. -/
def encodeDate (days : BitVec 32) : BitVec 64 :=
  (days.signExtend 64 + pgEpochOffsetDays) * usecPerDay

def encodeDatumToI64 (datum : Datum) : TypeOid → Option ℤ
  | .int2 | .int4 | .int8 => some datum.toInt
  | .timestamp | .timestamptz => some (encodeTimestamp datum).toInt
  | .date => some (encodeDate (datum.setWidth 32)).toInt
  | .time => some datum.toInt
  | .float4 => some (encodeF32ToI64 (datum.setWidth 32))
  | .float8 => some (encodeF64ToI64 datum)
  | _ => none

/-- `minmax_encoded_via`: the running minimum and maximum of the encodings of the
values that are not NULL. -/
def minmaxEncodedVia {α : Type*} (values : List (Option α)) (encode : α → ℤ) :
    Option ℤ × Option ℤ :=
  values.reduceOption.foldl (fun acc v => spanStep acc (encode v)) (none, none)

def computeMinmaxEncodedI64 (data : TypedColumn) (dataType : DataType) :
    Option ℤ × Option ℤ :=
  if dataType.supportsMinmax then
    match data with
    | .int16 values => minmaxEncodedVia values BitVec.toInt
    | .int32 values => minmaxEncodedVia values BitVec.toInt
    | .int64 values => minmaxEncodedVia values BitVec.toInt
    | .float64 values => minmaxEncodedVia values encodeF64ToI64
    | .float32 values => minmaxEncodedVia values encodeF32ToI64
    | _ => (none, none)
  else (none, none)

/-! ## What the pair says -/

theorem summary_minmaxEncodedVia {α : Type*} (values : List (Option α)) (encode : α → ℤ) :
    Summary (values.reduceOption.map encode) (minmaxEncodedVia values encode) := by
  have h := summary_of_foldl (values.reduceOption.map encode)
  rw [List.foldl_map] at h
  exact h

theorem msb_sign (w : ℕ) : (1#(w + 1) <<< w).msb = true := by
  rw [← BitVec.twoPow_eq, BitVec.msb_twoPow]
  simp

theorem toNat_sign (w : ℕ) : (1#(w + 1) <<< w).toNat = 2 ^ w := by
  rw [← BitVec.twoPow_eq, BitVec.toNat_twoPow]
  exact Nat.mod_eq_of_lt (Nat.pow_lt_pow_right (by omega) (by omega))

theorem and_sign_eq_zero_iff {w : ℕ} (bits : BitVec (w + 1)) :
    bits &&& (1#(w + 1) <<< w) = 0#(w + 1) ↔ bits.msb = false := by
  rw [← BitVec.twoPow_eq, BitVec.and_twoPow, BitVec.msb_eq_getLsbD_last]
  simp only [Nat.add_sub_cancel]
  cases bits.getLsbD w with
  | false => simp
  | true =>
      simp only [if_true, Bool.true_eq_false, iff_false]
      intro h
      have htoNat := congrArg BitVec.toNat h
      rw [BitVec.twoPow_eq, toNat_sign, BitVec.toNat_zero] at htoNat
      exact (Nat.two_pow_pos w).ne' htoNat

theorem magnitude_xor_sign {w : ℕ} (bits : BitVec (w + 1)) :
    magnitude (bits ^^^ (1#(w + 1) <<< w)) = magnitude bits := by
  unfold magnitude
  rw [BitVec.toNat_xor, toNat_sign, Nat.xor_mod_two_pow, Nat.mod_self, Nat.xor_zero]

theorem toInt_eq_magnitude {w : ℕ} (bits : BitVec (w + 1)) :
    bits.toInt = (if bits.msb then -(2 ^ w : ℤ) else 0) + magnitude bits := by
  have hnat := toNat_eq_magnitude bits
  rw [BitVec.toInt_eq_msb_cond, hnat]
  have hpow : (2 : ℤ) ^ (w + 1) = 2 ^ w + 2 ^ w := by ring
  cases bits.msb
  · simp
  · simp only [if_true]
    push_cast
    linarith

theorem encodeFloatKey_eq_totalKey {w : ℕ} (bits : BitVec (w + 1)) :
    encodeFloatKey bits = totalKey bits := by
  unfold encodeFloatKey totalKey
  cases hsign : bits.msb with
  | false =>
      have hand := (and_sign_eq_zero_iff bits).mpr hsign
      simp only [hand, ne_eq, not_true, if_false, Bool.false_eq_true]
      rw [BitVec.xor_assoc, BitVec.xor_self, BitVec.xor_zero, toInt_eq_magnitude, hsign]
      simp
  | true =>
      have hand : bits &&& (1#(w + 1) <<< w) ≠ 0#(w + 1) := by
        rw [ne_eq, and_sign_eq_zero_iff, hsign]
        decide
      simp only [hand, ne_eq, not_false_eq_true, if_true]
      have hmsb : (~~~bits ^^^ (1#(w + 1) <<< w)).msb = true := by
        rw [BitVec.msb_xor, BitVec.msb_not, msb_sign, hsign]
        simp
      have hlt : magnitude bits < 2 ^ w := Nat.mod_lt _ (Nat.two_pow_pos w)
      have hnot : (~~~bits).toNat = 2 ^ w - 1 - magnitude bits := by
        have hnat := toNat_eq_magnitude bits
        rw [hsign, if_pos rfl] at hnat
        rw [BitVec.toNat_not, Nat.pow_succ, hnat]
        omega
      have hmag : magnitude (~~~bits) = 2 ^ w - 1 - magnitude bits := by
        rw [magnitude, hnot]
        exact Nat.mod_eq_of_lt (by omega)
      rw [toInt_eq_magnitude, hmsb, magnitude_xor_sign, hmag, if_pos rfl]
      have hcast : ((2 ^ w - 1 - magnitude bits : ℕ) : ℤ) = 2 ^ w - 1 - magnitude bits := by
        rw [Nat.cast_sub (by omega), Nat.cast_sub (by omega)]
        push_cast
        rfl
      rw [hcast]
      ring

theorem encodeF64ToI64_eq_totalKey (bits : Pattern binary64) :
    encodeF64ToI64 bits = totalKey bits :=
  encodeFloatKey_eq_totalKey (w := 63) bits

theorem encodeF32ToI64_eq_totalKey (bits : Pattern binary32) :
    encodeF32ToI64 bits = totalKey bits :=
  encodeFloatKey_eq_totalKey (w := 31) bits

end DeltaX.Stats.Encoding
