import DeltaX.Agg.GroupKeys
import DeltaX.Scan.TemporalPruning
/-!
# Group keys from `EXTRACT`

The field of a timestamp is computed for each row.  Where the minimum and the maximum of a
segment already decide it, the key is computed once and the time column is not decompressed.
-/

namespace DeltaX.Agg.ExtractKey

open Column Scan.MinMax Scan.TemporalPruning

/-- The unit of an `EXTRACT` key, which the code has by name; of another name there is none. -/
abbrev KeyUnit : Type := Option ExtractUnit

/-- `decode_encoded_to_pg_i64`. -/
def decodeEncoded (encoded : ℤ) (typeOid : TypeOid) : ℤ :=
  match typeOid with
  | .timestamp | .timestamptz => (decodeEncodedToPgI64 (BitVec.ofInt 64 encoded)).toInt
  | .date => encoded.tdiv 86400000000 - 10957
  | _ => encoded

/-- `eval_extract`. -/
def evalUnit (value divisor : ℤ) (unit : KeyUnit) : ℤ := unit.elim 0 (evalExtract value divisor)

def bucketWidth : KeyUnit → Option ℤ
  | some .second => some 1000000
  | some .minute => some 60000000
  | some .hour => some 3600000000
  | _ => none

/-- `i64::saturating_mul`. -/
def saturatingMul (a b : ℤ) : ℤ := max (-2 ^ 63) (min (a * b) (2 ^ 63 - 1))

/-- The value that `eval_extract` is given for an encoded one. -/
def extractArgument (encoded divisor : ℤ) (typeOid : TypeOid) : ℤ :=
  if divisor > 0 then encoded else decodeEncoded encoded typeOid

def constantExtractKeyForSegment (cm : ColMinMax) (divisor : ℤ) (unit : KeyUnit) :
    Option ℤ :=
  if cm.minNull || cm.maxNull then none
  else
    let minValue := extractArgument cm.minEncoded divisor cm.typeOid
    let maxValue := extractArgument cm.maxEncoded divisor cm.typeOid
    let minKey := evalUnit minValue divisor unit
    let maxKey := evalUnit maxValue divisor unit
    if minKey ≠ maxKey then none
    else match bucketWidth unit with
      | none => none
      | some width =>
          if divisor > 0 then
            let scaled := saturatingMul (width / 1000000) divisor
            if scaled ≤ 0 then none
            else if minValue / scaled = maxValue / scaled then some minKey
            else none
          else if minValue / width = maxValue / width then some minKey
          else none

/-! ## Keys and buckets -/

def bucketKey : KeyUnit → ℤ → ℤ
  | some .second, bucket => bucket % 60
  | some .minute, bucket => bucket % 60
  | some .hour, bucket => bucket % 24
  | _, _ => 0

theorem exists_unit {unit : KeyUnit} {width : ℤ} (hwidth : bucketWidth unit = some width) :
    unit = some .second ∧ width = 1000000 ∨ unit = some .minute ∧ width = 60000000 ∨
      unit = some .hour ∧ width = 3600000000 := by
  cases unit with
  | none => cases hwidth
  | some u => cases u <;> cases hwidth <;> simp

theorem evalUnit_eq_bucketKey {unit : KeyUnit} {width : ℤ} (hwidth : bucketWidth unit = some width)
    (usec : ℤ) : evalUnit usec 0 unit = bucketKey unit (usec / width) := by
  obtain ⟨rfl, rfl⟩ | ⟨rfl, rfl⟩ | ⟨rfl, rfl⟩ := exists_unit hwidth
  · show usec % 86400000000 / 1000000 % 60 = usec / 1000000 % 60
    omega
  · show usec % 86400000000 / 60000000 % 60 = usec / 60000000 % 60
    omega
  · show usec % 86400000000 / 3600000000 = usec / 3600000000 % 24
    omega

theorem evalUnit_scaled_eq_bucketKey {unit : KeyUnit} {width : ℤ}
    (hwidth : bucketWidth unit = some width) (value : ℤ) {divisor : ℤ} (hdivisor : 0 < divisor) :
    evalUnit value divisor unit = bucketKey unit (value / divisor / (width / 1000000)) := by
  have hscaled : ∀ u : ExtractUnit,
      evalExtract value divisor u = extractSubdayFromBigintScaled value divisor u :=
    fun u => if_pos hdivisor
  obtain ⟨rfl, rfl⟩ | ⟨rfl, rfl⟩ | ⟨rfl, rfl⟩ := exists_unit hwidth
  · rw [evalUnit, Option.elim_some, hscaled]
    show value / divisor % 86400 % 60 = value / divisor / (1000000 / 1000000) % 60
    omega
  · rw [evalUnit, Option.elim_some, hscaled]
    show value / divisor % 86400 / 60 % 60 = value / divisor / (60000000 / 1000000) % 60
    omega
  · rw [evalUnit, Option.elim_some, hscaled]
    show value / divisor % 86400 / 3600 = value / divisor / (3600000000 / 1000000) % 24
    omega

theorem bucketWidth_bounds {unit : KeyUnit} {width : ℤ}
    (hwidth : bucketWidth unit = some width) :
    1000000 ≤ width ∧ width ≤ 3600000000 ∧ width % 1000000 = 0 ∧
      946684800000000 % width = 0 := by
  obtain ⟨rfl, rfl⟩ | ⟨rfl, rfl⟩ | ⟨rfl, rfl⟩ := exists_unit hwidth <;> decide

theorem ediv_eq_of_between {lo hi v width : ℤ} (hwidth : 0 < width)
    (h : lo / width = hi / width) (hlo : lo ≤ v) (hhi : v ≤ hi) : v / width = lo / width := by
  apply le_antisymm
  · rw [h]
    exact Int.ediv_le_ediv hwidth hhi
  · exact Int.ediv_le_ediv hwidth hlo

/-- A width that is too large for `i64` has one bucket for the negative values and one for the
others, and so has the saturated one, its greatest values aside. -/
theorem ediv_eq_of_saturated {lo hi v width : ℤ} (hwidth : 2 ^ 63 ≤ width)
    (hmin : -2 ^ 63 ≤ lo) (hmax : hi < 2 ^ 63)
    (h : lo / (2 ^ 63 - 1) = hi / (2 ^ 63 - 1)) (hlo : lo ≤ v) (hhi : v ≤ hi) :
    v / width = lo / width := by
  have hbucket : ∀ x : ℤ, -2 ^ 63 ≤ x → x < 2 ^ 63 → x / width = if x < 0 then -1 else 0 := by
    intro x hx hx'
    split_ifs with hneg
    · have hlow : -1 ≤ x / width := (Int.le_ediv_iff_mul_le (by omega)).mpr (by omega)
      have hhigh : x / width < 0 := Int.ediv_neg_of_neg_of_pos hneg (by omega)
      omega
    · exact Int.ediv_eq_zero_of_lt (by omega) (by omega)
  have hsign : lo < 0 ↔ hi < 0 := by omega
  rw [hbucket v (by omega) (by omega), hbucket lo hmin (by omega)]
  by_cases hneg : lo < 0
  · rw [if_pos hneg, if_pos (by omega)]
  · rw [if_neg hneg, if_neg (by omega)]

theorem ediv_eq_of_scaled {lo hi v n divisor : ℤ} (hn : 0 < n) (hdivisor : 0 < divisor)
    (hmin : -2 ^ 63 ≤ lo) (hmax : hi < 2 ^ 63)
    (h : lo / saturatingMul n divisor = hi / saturatingMul n divisor) (hlo : lo ≤ v)
    (hhi : v ≤ hi) : v / divisor / n = lo / divisor / n := by
  have hpos : 0 < n * divisor := mul_pos hn hdivisor
  rw [Int.ediv_ediv_of_nonneg hdivisor.le, Int.ediv_ediv_of_nonneg hdivisor.le, mul_comm divisor n]
  by_cases hfit : n * divisor < 2 ^ 63
  · have hscaled : saturatingMul n divisor = n * divisor := by
      unfold saturatingMul
      omega
    rw [hscaled] at h
    exact ediv_eq_of_between hpos h hlo hhi
  · have hscaled : saturatingMul n divisor = 2 ^ 63 - 1 := by
      unfold saturatingMul
      omega
    rw [hscaled] at h
    exact ediv_eq_of_saturated (by omega) hmin hmax h hlo hhi

/-! ## Constant keys -/

theorem decodeEncoded_timestamp {encoded : ℤ} (hmin : -2 ^ 63 ≤ encoded) (hmax : encoded < 2 ^ 63)
    {typeOid : TypeOid} (htype : typeOid = .timestamp ∨ typeOid = .timestamptz) :
    decodeEncoded encoded typeOid =
      if encoded - 946684800000000 < -2 ^ 63 then encoded - 946684800000000 + 2 ^ 64
      else encoded - 946684800000000 := by
  have hoffset : pgEpochOffsetUsec.toInt = 946684800000000 := rfl
  have hdecode : decodeEncoded encoded typeOid =
      (decodeEncodedToPgI64 (BitVec.ofInt 64 encoded)).toInt := by
    rcases htype with rfl | rfl
    · rfl
    · rfl
  rw [hdecode, decodeEncodedToPgI64, BitVec.toInt_sub, BitVec.toInt_ofInt, hoffset]
  simp only [Int.bmod_def]
  split_ifs <;> omega

theorem decodeEncoded_mono {a b : ℤ} (h : a ≤ b) {typeOid : TypeOid}
    (htype : ¬ (typeOid = .timestamp ∨ typeOid = .timestamptz)) :
    decodeEncoded a typeOid ≤ decodeEncoded b typeOid := by
  cases typeOid with
  | timestamp => exact absurd (Or.inl rfl) htype
  | timestamptz => exact absurd (Or.inr rfl) htype
  | date =>
      have hdiv : a.tdiv 86400000000 ≤ b.tdiv 86400000000 := Int.tdiv_le_tdiv (by omega) h
      exact Int.sub_le_sub_right hdiv 10957
  | _ => exact h

/-- Every value of the segment has the key that is taken for all of it. -/
def KeyOfEveryRow (cm : ColMinMax) (divisor : ℤ) (unit : KeyUnit) : Prop :=
  ∀ key, constantExtractKeyForSegment cm divisor unit = some key →
    ∀ v, cm.minEncoded ≤ v → v ≤ cm.maxEncoded →
      evalUnit (extractArgument v divisor cm.typeOid) divisor unit = key

/-- The bounds are timestamps on the two sides of the end of `i64`, in one bucket there. -/
def AcrossTheEnd (cm : ColMinMax) (divisor : ℤ) (unit : KeyUnit) : Prop :=
  divisor = 0 ∧ cm.minNull = false ∧ cm.maxNull = false ∧
    (cm.typeOid = .timestamp ∨ cm.typeOid = .timestamptz) ∧
    ∃ width, bucketWidth unit = some width ∧
      (cm.minEncoded + 2 ^ 64) / width = cm.maxEncoded / width

theorem exists_width_of_some {cm : ColMinMax} {divisor key : ℤ} {unit : KeyUnit}
    (h : constantExtractKeyForSegment cm divisor unit = some key) :
    cm.minNull = false ∧ cm.maxNull = false ∧ ∃ width, bucketWidth unit = some width := by
  unfold constantExtractKeyForSegment at h
  cases hmin : cm.minNull with
  | true => simp [hmin] at h
  | false =>
      cases hmax : cm.maxNull with
      | true => simp [hmax] at h
      | false =>
          cases hwidth : bucketWidth unit with
          | none => simp [hwidth] at h
          | some width => exact ⟨rfl, rfl, width, rfl⟩

section Width

variable {cm : ColMinMax} {unit : KeyUnit} {width : ℤ}

theorem constantExtractKey_scaled (hmin : cm.minNull = false) (hmax : cm.maxNull = false)
    (hwidth : bucketWidth unit = some width) {divisor : ℤ} (hdivisor : divisor > 0) (key : ℤ) :
    constantExtractKeyForSegment cm divisor unit = some key ↔
      evalUnit cm.maxEncoded divisor unit = key ∧
        evalUnit cm.minEncoded divisor unit = key ∧
          cm.minEncoded / saturatingMul (width / 1000000) divisor =
            cm.maxEncoded / saturatingMul (width / 1000000) divisor := by
  have hpos : ¬ saturatingMul (width / 1000000) divisor ≤ 0 := by
    have hbounds := bucketWidth_bounds hwidth
    have hmul : 0 < width / 1000000 * divisor := mul_pos (by omega) hdivisor
    unfold saturatingMul
    omega
  simp only [constantExtractKeyForSegment, extractArgument, hmin, hmax, hwidth, Bool.or_self,
    Bool.false_eq_true, if_false, if_pos hdivisor, if_neg hpos]
  split_ifs <;> grind

theorem constantExtractKey_timestamp (hmin : cm.minNull = false) (hmax : cm.maxNull = false)
    (hwidth : bucketWidth unit = some width) (key : ℤ) :
    constantExtractKeyForSegment cm 0 unit = some key ↔
      evalUnit (decodeEncoded cm.maxEncoded cm.typeOid) 0 unit = key ∧
        evalUnit (decodeEncoded cm.minEncoded cm.typeOid) 0 unit = key ∧
          decodeEncoded cm.minEncoded cm.typeOid / width =
            decodeEncoded cm.maxEncoded cm.typeOid / width := by
  simp only [constantExtractKeyForSegment, extractArgument, hmin, hmax, hwidth,
    Bool.or_self, Bool.false_eq_true, if_false, gt_iff_lt, lt_irrefl]
  split_ifs <;> grind

end Width

theorem keyOfEveryRow_scaled {cm : ColMinMax} {divisor : ℤ} {unit : KeyUnit}
    (hmin : -2 ^ 63 ≤ cm.minEncoded) (hmax : cm.maxEncoded < 2 ^ 63) (hdivisor : divisor > 0) :
    KeyOfEveryRow cm divisor unit := by
  intro key hkey v hlo hhi
  obtain ⟨hnull, hnull', width, hwidth⟩ := exists_width_of_some hkey
  obtain ⟨_, hfirst, hbucket⟩ :=
    (constantExtractKey_scaled hnull hnull' hwidth hdivisor key).mp hkey
  have hbounds := bucketWidth_bounds hwidth
  have hsame := ediv_eq_of_scaled (by omega) hdivisor hmin hmax hbucket hlo hhi
  rw [evalUnit_scaled_eq_bucketKey hwidth _ hdivisor] at hfirst
  rw [extractArgument, if_pos hdivisor, evalUnit_scaled_eq_bucketKey hwidth _ hdivisor, hsame,
    hfirst]

/-- Where the values in between are decoded in between, the buckets decide. -/
theorem keyOfEveryRow_decoded {cm : ColMinMax} {unit : KeyUnit}
    (hmono : ∀ width, bucketWidth unit = some width →
      decodeEncoded cm.minEncoded cm.typeOid / width =
        decodeEncoded cm.maxEncoded cm.typeOid / width →
      ∀ v, cm.minEncoded ≤ v → v ≤ cm.maxEncoded →
        decodeEncoded cm.minEncoded cm.typeOid ≤ decodeEncoded v cm.typeOid ∧
          decodeEncoded v cm.typeOid ≤ decodeEncoded cm.maxEncoded cm.typeOid) :
    KeyOfEveryRow cm 0 unit := by
  intro key hkey v hlo hhi
  obtain ⟨hnull, hnull', width, hwidth⟩ := exists_width_of_some hkey
  obtain ⟨_, hfirst, hbucket⟩ := (constantExtractKey_timestamp hnull hnull' hwidth key).mp hkey
  have hbounds := bucketWidth_bounds hwidth
  obtain ⟨hge, hle⟩ := hmono width hwidth hbucket v hlo hhi
  have hsame := ediv_eq_of_between (by omega) hbucket hge hle
  rw [evalUnit_eq_bucketKey hwidth] at hfirst
  show evalUnit (decodeEncoded v cm.typeOid) 0 unit = key
  rw [evalUnit_eq_bucketKey hwidth, hsame, hfirst]

theorem sub_offset_ediv {unit : KeyUnit} {width : ℤ}
    (hwidth : bucketWidth unit = some width) (x : ℤ) :
    (x - 946684800000000) / width = x / width - 946684800000000 / width := by
  have hdvd : width ∣ 946684800000000 := Int.dvd_of_emod_eq_zero (bucketWidth_bounds hwidth).2.2.2
  exact Int.sub_ediv_of_dvd x hdvd

theorem first_keys_ne {unit : KeyUnit} {width : ℤ} (hwidth : bucketWidth unit = some width) :
    bucketKey unit ((0 - 946684800000000) / width) ≠
      bucketKey unit ((width - 946684800000000) / width) := by
  obtain ⟨rfl, rfl⟩ | ⟨rfl, rfl⟩ | ⟨rfl, rfl⟩ := exists_unit hwidth <;> decide

/-- The constant key of a segment is the key of each of its rows, but for timestamps across the
end of `i64`. -/
theorem keyOfEveryRow_iff {cm : ColMinMax} {divisor : ℤ} {unit : KeyUnit}
    (hmin : -2 ^ 63 ≤ cm.minEncoded) (hmax : cm.maxEncoded < 2 ^ 63)
    (hle : cm.minEncoded ≤ cm.maxEncoded) (hdivisor : 0 ≤ divisor) :
    KeyOfEveryRow cm divisor unit ↔ ¬ AcrossTheEnd cm divisor unit := by
  by_cases hpos : divisor > 0
  · exact iff_of_true (keyOfEveryRow_scaled hmin hmax hpos) fun h => by
      have hzero := h.1
      omega
  obtain rfl : divisor = 0 := by omega
  by_cases htype : cm.typeOid = .timestamp ∨ cm.typeOid = .timestamptz
  · have hdecode : ∀ v, cm.minEncoded ≤ v → v ≤ cm.maxEncoded →
        decodeEncoded v cm.typeOid =
          if v - 946684800000000 < -2 ^ 63 then v - 946684800000000 + 2 ^ 64
          else v - 946684800000000 :=
      fun v hlo hhi => decodeEncoded_timestamp (by omega) (by omega) htype
    have hfirst := hdecode cm.minEncoded le_rfl hle
    have hlast := hdecode cm.maxEncoded hle le_rfl
    constructor
    · rintro hkey ⟨_, hnull, hnull', _, width, hwidth, hbucket⟩
      have hbounds := bucketWidth_bounds hwidth
      have hpos : 0 < width := by omega
      -- the bounds are less than a bucket away from the two ends of `i64`
      have hnear : cm.minEncoded + 2 ^ 64 < cm.maxEncoded + width := by
        have hlow := Int.mul_ediv_self_le (x := cm.maxEncoded) hpos.ne'
        have hhigh := Int.lt_mul_ediv_self_add (x := cm.minEncoded + 2 ^ 64) hpos
        rw [hbucket] at hhigh
        omega
      rw [if_pos (by omega)] at hfirst
      rw [if_neg (by omega)] at hlast
      have hsame : decodeEncoded cm.minEncoded cm.typeOid / width =
          decodeEncoded cm.maxEncoded cm.typeOid / width := by
        rw [hfirst, hlast, sub_offset_ediv hwidth, ← hbucket, ← sub_offset_ediv hwidth]
        congr 1
        omega
      have hkeys : ∀ v, cm.minEncoded ≤ v → v ≤ cm.maxEncoded →
          bucketKey unit (decodeEncoded v cm.typeOid / width) =
            bucketKey unit (decodeEncoded cm.maxEncoded cm.typeOid / width) := by
        intro v hlo hhi
        have hsome := (constantExtractKey_timestamp hnull hnull' hwidth
          (bucketKey unit (decodeEncoded cm.maxEncoded cm.typeOid / width))).mpr
            ⟨evalUnit_eq_bucketKey hwidth _,
              by rw [evalUnit_eq_bucketKey hwidth, hsame], hsame⟩
        rw [← evalUnit_eq_bucketKey hwidth]
        exact hkey _ hsome v hlo hhi
      have hzero := hkeys 0 (by omega) (by omega)
      have hone := hkeys width (by omega) (by omega)
      rw [hdecode 0 (by omega) (by omega), if_neg (by omega)] at hzero
      rw [hdecode width (by omega) (by omega), if_neg (by omega)] at hone
      exact first_keys_ne hwidth (hzero.trans hone.symm)
    · intro hacross key hkey
      obtain ⟨hnull, hnull', _⟩ := exists_width_of_some hkey
      apply keyOfEveryRow_decoded _ key hkey
      intro width hwidth hbucket v hlo hhi
      rw [hdecode v hlo hhi, hfirst, hlast]
      by_cases hwraps : cm.minEncoded - 946684800000000 < -2 ^ 63 ∧
          ¬ cm.maxEncoded - 946684800000000 < -2 ^ 63
      · exfalso
        rw [hfirst, hlast, if_pos hwraps.1, if_neg hwraps.2,
          show cm.minEncoded - 946684800000000 + 2 ^ 64 =
            cm.minEncoded + 2 ^ 64 - 946684800000000 by omega,
          sub_offset_ediv hwidth, sub_offset_ediv hwidth] at hbucket
        exact hacross ⟨rfl, hnull, hnull', htype, width, hwidth, by omega⟩
      · split_ifs <;> omega
  · apply iff_of_true
    · exact keyOfEveryRow_decoded fun _ _ _ v hlo hhi =>
        ⟨decodeEncoded_mono hlo htype, decodeEncoded_mono hhi htype⟩
    · exact fun h => htype h.2.2.2.1

/-- Timestamps of one hour. -/
theorem keyOfEveryRow_hour :
    KeyOfEveryRow ⟨1715256000000000, 1715259599999999, false, false, .timestamp⟩ 0 (some .hour) ↔
      ¬ AcrossTheEnd ⟨1715256000000000, 1715259599999999, false, false, .timestamp⟩ 0 (some .hour) :=
  keyOfEveryRow_iff (by decide) (by decide) (by decide) (by decide)

/-- The first microsecond behind the end of `i64` and the last one before it. -/
def acrossTheEnd : ColMinMax := ⟨-2 ^ 63, 2 ^ 63 - 1, false, false, .timestamp⟩

/-- A segment with these bounds holds the Unix epoch too, which is in another second. -/
theorem key_across_the_end_wrong :
    ¬ ∀ (cm : ColMinMax) (divisor : ℤ) (unit : KeyUnit), -2 ^ 63 ≤ cm.minEncoded →
      cm.maxEncoded < 2 ^ 63 → cm.minEncoded ≤ cm.maxEncoded → 0 ≤ divisor →
        KeyOfEveryRow cm divisor unit := by
  intro h
  have hkey := h acrossTheEnd 0 (some .second) (by decide) (by decide) (by decide) le_rfl 54
    (by decide) 0 (by decide) (by decide)
  revert hkey
  decide

end DeltaX.Agg.ExtractKey
