import DeltaX.Column.FloatText
import DeltaX.Column.TimestampRoundTrip
/-!
# Segment-by values in the aggregate workers

A column of the segment key has no blob.  The workers take its value from the text that
PostgreSQL's output function wrote, and parse the text without calling PostgreSQL.
-/

namespace DeltaX.Agg.SegmentValues

open Column Column.FloatText Column.Timeparse Column.TimestampRoundTrip Codec.NumericScaled
open Support.IeeeOrder

/-! ## Parsing an integer -/

/-- `str::parse` of a signed integer of `w` bits. -/
def parseInt (w : ℕ) (s : Text) : Option ℤ :=
  (parseI64 s).filter fun n => -2 ^ (w - 1) ≤ n ∧ n < 2 ^ (w - 1)

/-! ## The code -/

/-- `is_numeric_type`: the columns the workers can read. -/
def isNumericType : TypeOid → Bool
  | .int2 | .int4 | .int8 | .float4 | .float8 | .timestamp | .timestamptz | .date | .bool => true
  | _ => false

def parsed (s : Text) (ty : TypeOid) : Option Datum :=
  match ty with
  | .int2 => (parseInt 16 s).map (BitVec.ofInt 64)
  | .int4 | .date => (parseInt 32 s).map (BitVec.ofInt 64)
  | .int8 | .timestamp | .timestamptz => (parseInt 64 s).map (BitVec.ofInt 64)
  | .float4 => (parseFloat binary32 s).map fun v => BitVec.setWidth 64 v
  | .float8 => parseFloat binary64 s
  | .bool => some (if s = "t".toList ∨ s = "true".toList ∨ s = "1".toList then 1 else 0)
  | _ => none

def parseStringToDatum (s : Text) (ty : TypeOid) : Datum := (parsed s ty).getD 0

def segmentByCells (value : Option Text) (ty : TypeOid) (rowCount : ℕ) : List (Datum × Bool) :=
  match value with
  | some s => List.replicate rowCount (parseStringToDatum s ty, false)
  | none => List.replicate rowCount (0, true)

/-! ## The texts of the values -/

/-- A date or a time has a separator or a letter behind its first character, in every
`DateStyle`. -/
def DateTimeText (s : Text) : Prop := ∃ c ∈ s.tail, c.isDigit = false

/-- What the manual says of the text that the output function of the type writes. -/
def Documented (output : TypeOid → Datum → Text) (ty : TypeOid) (v : Datum) : Prop :=
  match ty with
  | .int2 => output ty v = intText (v.setWidth 16).toInt
  | .int4 => output ty v = intText (v.setWidth 32).toInt
  | .int8 => output ty v = intText v.toInt
  | .float4 => IsTextOf binary32 (v.setWidth 32) (output ty v)
  | .float8 => IsTextOf binary64 v (output ty v)
  | .bool => output ty v = (if v = 0 then "f" else "t").toList
  | .date | .timestamp | .timestamptz => DateTimeText (output ty v)
  | _ => True

/-! ## Equal datums -/

def SameValue (ty : TypeOid) (d v : Datum) : Prop :=
  match ty with
  | .int2 => d.setWidth 16 = v.setWidth 16
  | .int4 | .date => d.setWidth 32 = v.setWidth 32
  | .float4 => SameFloat (f := binary32) (d.setWidth 32) (v.setWidth 32)
  | .float8 => SameFloat (f := binary64) d v
  | .bool => d = 0 ↔ v = 0
  | _ => d = v

/-- The workers see the value in every row, and its text has been parsed. -/
def ReachesUnchanged (output : TypeOid → Datum → Text) (ty : TypeOid) (v : Datum) : Prop :=
  parsed (output ty v) ty ≠ none ∧
    ∀ rowCount, ∀ cell ∈ segmentByCells (some (output ty v)) ty rowCount,
      cell.2 = false ∧ SameValue ty cell.1 v

/-! ## Integers -/

theorem intText_nonneg {n : ℤ} (h : 0 ≤ n) : intText n = Nat.toDigits 10 n.natAbs := by
  rw [intText, if_neg (by omega)]

theorem intText_neg {n : ℤ} (h : n < 0) : intText n = '-' :: Nat.toDigits 10 n.natAbs := by
  rw [intText, if_pos h]

theorem isDigit_toDigits (n : ℕ) : ∀ d ∈ Nat.toDigits 10 n, d.isDigit = true := fun _ hd =>
  Nat.isDigit_of_mem_toDigits (by decide) (by decide) hd

theorem number_toDigits (n : ℕ) : number (Nat.toDigits 10 n) = n := by
  rw [number, Nat.ofDigitChars_toDigits (by decide) (by decide)]

def signed (negative : Bool) (digits : Text) : ℤ :=
  if negative then -(number digits : ℤ) else number digits

theorem parseI64_eq (s : Text) :
    parseI64 s =
      if (splitSign s).2 ≠ [] ∧ (splitSign s).2.all Char.isDigit ∧
          -2 ^ 63 ≤ signed (splitSign s).1 (splitSign s).2 ∧
          signed (splitSign s).1 (splitSign s).2 < 2 ^ 63 then
        some (signed (splitSign s).1 (splitSign s).2)
      else none := by
  unfold parseI64
  split
  rename_i negative digits hmatch
  have hsplit : splitSign s = (negative, digits) := by
    rw [← hmatch]
    grind [splitSign]
  rw [hsplit]
  rfl

theorem splitSign_digits {digits : Text} (hdigits : ∀ d ∈ digits, d.isDigit = true) :
    splitSign digits = (false, digits) := by
  unfold splitSign
  split
  · exact absurd (hdigits '-' List.mem_cons_self) (by decide)
  · exact absurd (hdigits '+' List.mem_cons_self) (by decide)
  · rfl

theorem parseI64_signed {s digits : Text} {negative : Bool} (hsplit : splitSign s = (negative, digits))
    (hne : digits ≠ []) (hdigits : ∀ d ∈ digits, d.isDigit = true)
    (hlow : -2 ^ 63 ≤ signed negative digits) (hhigh : signed negative digits < 2 ^ 63) :
    parseI64 s = some (signed negative digits) := by
  rw [parseI64_eq, hsplit]
  exact if_pos ⟨hne, List.all_eq_true.mpr hdigits, hlow, hhigh⟩

theorem parseI64_intText {n : ℤ} (hlow : -2 ^ 63 ≤ n) (hhigh : n < 2 ^ 63) :
    parseI64 (intText n) = some n := by
  rcases lt_or_ge n 0 with hneg | hpos
  · have hvalue : signed true (Nat.toDigits 10 n.natAbs) = n := by
      rw [signed, if_pos rfl, number_toDigits]
      omega
    have hsplit : splitSign ('-' :: Nat.toDigits 10 n.natAbs) = (true, _) := rfl
    rw [intText_neg hneg, parseI64_signed hsplit Nat.toDigits_ne_nil
      (isDigit_toDigits _) (by rwa [hvalue]) (by rwa [hvalue]), hvalue]
  · have hvalue : signed false (Nat.toDigits 10 n.natAbs) = n := by
      rw [signed, if_neg (by decide), number_toDigits]
      omega
    rw [intText_nonneg hpos, parseI64_signed (splitSign_digits (isDigit_toDigits _))
      Nat.toDigits_ne_nil (isDigit_toDigits _) (by rwa [hvalue]) (by rwa [hvalue]), hvalue]

theorem parseInt_intText {w : ℕ} (hpos : 0 < w) (hle : w ≤ 64) (v : BitVec w) :
    parseInt w (intText v.toInt) = some v.toInt := by
  have hpow : (2 : ℤ) ^ (w - 1) ≤ 2 ^ 63 := by
    exact_mod_cast Nat.pow_le_pow_right (by decide : 0 < 2) (show w - 1 ≤ 63 by omega)
  have hlow : -2 ^ (w - 1) ≤ v.toInt := BitVec.le_toInt v
  have hhigh : v.toInt < 2 ^ (w - 1) := BitVec.toInt_lt
  rw [parseInt, parseI64_intText (by omega) (by omega)]
  simp [hlow, hhigh]

theorem mem_splitSign_of_mem_tail {s : Text} {c : Char} (h : c ∈ s.tail) : c ∈ (splitSign s).2 := by
  unfold splitSign
  split
  · exact h
  · exact h
  · exact List.mem_of_mem_tail h

/-- A date is not a number. -/
theorem parseInt_eq_none {s : Text} (h : DateTimeText s) (w : ℕ) : parseInt w s = none := by
  obtain ⟨c, hc, hdigit⟩ := h
  have hnone : parseI64 s = none := by
    rw [parseI64_eq]
    apply if_neg
    intro hparsed
    have := List.all_eq_true.mp hparsed.2.1 c (mem_splitSign_of_mem_tail hc)
    rw [hdigit] at this
    exact absurd this (by decide)
  rw [parseInt, hnone]
  rfl

/-! ## Values that reach the workers -/

section reached

variable {output : TypeOid → Datum → Text} {ty : TypeOid} {v : Datum}

theorem reachesUnchanged_of_parsed {d : Datum} (h : parsed (output ty v) ty = some d)
    (hsame : SameValue ty d v) : ReachesUnchanged output ty v := by
  have hdatum : parseStringToDatum (output ty v) ty = d := by
    rw [parseStringToDatum, h]
    rfl
  refine ⟨by rw [h]; exact Option.some_ne_none d, fun rowCount cell hcell => ?_⟩
  rw [segmentByCells, hdatum] at hcell
  rw [List.eq_of_mem_replicate hcell]
  exact ⟨rfl, hsame⟩

theorem setWidth_ofInt_toInt {w : ℕ} (hw : w ≤ 64) (x : BitVec w) :
    (BitVec.ofInt 64 x.toInt).setWidth w = x := by
  have hext : BitVec.ofInt 64 x.toInt = x.signExtend 64 := rfl
  rw [hext]
  ext i hi
  rw [BitVec.getElem_setWidth, BitVec.getLsbD_signExtend]
  simp [hi, show i < 64 by omega]

/-- The text of a date is not parsed, and the column is taken for 2000-01-01. -/
theorem parsed_dateTime (hty : isDateTime ty = true) (h : Documented output ty v) :
    parsed (output ty v) ty = none := by
  cases ty with
  | date =>
      have htext : DateTimeText (output .date v) := h
      exact congrArg (Option.map (BitVec.ofInt 64)) (parseInt_eq_none htext 32)
  | timestamp =>
      have htext : DateTimeText (output .timestamp v) := h
      exact congrArg (Option.map (BitVec.ofInt 64)) (parseInt_eq_none htext 64)
  | timestamptz =>
      have htext : DateTimeText (output .timestamptz v) := h
      exact congrArg (Option.map (BitVec.ofInt 64)) (parseInt_eq_none htext 64)
  | int2 | int4 | int8 | float4 | float8 | bool | time | text | varchar | bpchar | other =>
      cases hty

theorem parsed_int {w : ℕ} (hpos : 0 < w) (hle : w ≤ 64) {s : Text} {x : BitVec w}
    (h : s = intText x.toInt) :
    (parseInt w s).map (BitVec.ofInt 64) = some (BitVec.ofInt 64 x.toInt) := by
  rw [h, parseInt_intText hpos hle, Option.map_some]

theorem reachesUnchanged_of_numeric (hty : isNumericType ty = true) (hdate : isDateTime ty = false)
    (h : Documented output ty v) : ReachesUnchanged output ty v := by
  cases ty with
  | int2 =>
      have htext : output .int2 v = intText (v.setWidth 16).toInt := h
      exact reachesUnchanged_of_parsed (parsed_int (by decide) (by decide) htext)
        (setWidth_ofInt_toInt (by decide) _)
  | int4 =>
      have htext : output .int4 v = intText (v.setWidth 32).toInt := h
      exact reachesUnchanged_of_parsed (parsed_int (by decide) (by decide) htext)
        (setWidth_ofInt_toInt (by decide) _)
  | int8 =>
      have htext : output .int8 v = intText v.toInt := h
      exact reachesUnchanged_of_parsed (parsed_int (by decide) (by decide) htext)
        BitVec.ofInt_toInt
  | float4 =>
      have htext : IsTextOf binary32 (v.setWidth 32) (output .float4 v) := h
      obtain ⟨c, hc, hsame⟩ := parseFloat_text (by decide) htext
      have hparsed : parsed (output .float4 v) .float4 = some (BitVec.setWidth 64 c) :=
        congrArg (Option.map (BitVec.setWidth 64)) hc
      have hword : (BitVec.setWidth 64 c).setWidth 32 = c := by
        rw [BitVec.setWidth_setWidth_of_le c (by decide)]
        exact BitVec.setWidth_eq c
      apply reachesUnchanged_of_parsed hparsed
      show SameFloat (f := binary32) ((BitVec.setWidth 64 c).setWidth 32) (v.setWidth 32)
      exact hword.symm ▸ hsame
  | float8 =>
      have htext : IsTextOf binary64 v (output .float8 v) := h
      obtain ⟨c, hc, hsame⟩ := parseFloat_text (by decide) htext
      have hparsed : parsed (output .float8 v) .float8 = some c := hc
      exact reachesUnchanged_of_parsed hparsed hsame
  | bool =>
      have htext : output .bool v = (if v = 0 then "f" else "t").toList := h
      by_cases hv : v = 0
      · have hparsed : parsed (output .bool v) .bool = some 0 := by
          rw [htext, if_pos hv]
          rfl
        exact reachesUnchanged_of_parsed hparsed ⟨fun _ => hv, fun _ => rfl⟩
      · have hparsed : parsed (output .bool v) .bool = some 1 := by
          rw [htext, if_neg hv]
          rfl
        exact reachesUnchanged_of_parsed hparsed
          ⟨fun hone => absurd hone (by decide), fun hzero => absurd hzero hv⟩
  | date | timestamp | timestamptz => cases hdate
  | time | text | varchar | bpchar | other => cases hty

/-- Exactly the dates and times do not reach the workers. -/
theorem reachesUnchanged_iff (hty : isNumericType ty = true) (h : Documented output ty v) :
    ReachesUnchanged output ty v ↔ isDateTime ty = false := by
  constructor
  · intro hreaches
    cases hdate : isDateTime ty with
    | false => rfl
    | true => exact absurd (parsed_dateTime hdate h) hreaches.1
  · intro hdate
    exact reachesUnchanged_of_numeric hty hdate h

/-- What a date or time is taken for is right for 2000-01-01 alone. -/
theorem sameValue_dateTime_iff (hty : isDateTime ty = true) (h : Documented output ty v) :
    SameValue ty (parseStringToDatum (output ty v) ty) v ↔ SameValue ty 0 v := by
  rw [parseStringToDatum, parsed_dateTime hty h]
  rfl

end reached

/-- `SELECT day, count(*) … GROUP BY day`, segmented by the day, on 2024-01-15: its workers count
the rows of 2000-01-01. -/
theorem segment_day_lost :
    ¬ ∀ (output : TypeOid → Datum → Text) (ty : TypeOid) (v : Datum), isNumericType ty = true →
      Documented output ty v → ReachesUnchanged output ty v := by
  intro hall
  have hreaches := hall (fun _ _ => "2024-01-15".toList) .date 8780 rfl
    ⟨'-', by decide, by decide⟩
  exact hreaches.1 (by decide)

/-- `1.5`. -/
def oneAndHalf : Numeral where
  negative := false
  int := ['1']
  frac := ['5']
  exponent := none
  int_ne_nil := by decide
  isDigit_int := List.forall_mem_singleton.mpr rfl
  isDigit_frac := List.forall_mem_singleton.mpr rfl
  exponent_digits := by simp

theorem float_reaches_unchanged :
    ReachesUnchanged (fun _ _ => "1.5".toList) .float4 0x3FC00000 ↔
      isDateTime .float4 = false := by
  apply reachesUnchanged_iff rfl
  have hvalue : oneAndHalf.value / leastSubnormal binary32 = scaled 23 0x3FC00000 := by
    have hnumber : oneAndHalf.value = 3 / 2 := by
      show ((15 : ℕ) : ℚ) * 10 ^ (0 - 1 : ℤ) = 3 / 2
      norm_num
    have hunit : leastSubnormal binary32 = 1 / 2 ^ 149 := by
      show (2 : ℚ) ^ (2 - 2 ^ (8 - 1) - 23 : ℤ) = 1 / 2 ^ 149
      norm_num
    have hscaled : scaled 23 0x3FC00000 = 3 * 2 ^ 148 := by decide
    rw [hnumber, hunit, hscaled]
    norm_num
  refine ⟨oneAndHalf, rfl, rfl, ?_⟩
  rw [hvalue]
  exact nearest_scaled _

end DeltaX.Agg.SegmentValues
