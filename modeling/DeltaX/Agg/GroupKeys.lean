import DeltaX.Column.Typed
import Mathlib.Algebra.Field.Rat
import Mathlib.Algebra.Order.Ring.Int
import Mathlib.Data.Rat.Cast.Order
import Mathlib.Tactic.FieldSimp
/-!
# Grouping by a time expression

The packed key of a row, computed by floor arithmetic on microseconds since
2000-01-01 UTC, and the values of `date_trunc` and `extract` it stands for.
PostgreSQL evaluates both on the clock of the session zone.
-/

namespace DeltaX.Agg

open Column

/-- A value as it leaves the executor; NULL is the `none` of an option. -/
inductive SqlValue
  | word (v : ℤ)
  | numeric (v : ℚ)
  | numericInfinity (negative : Bool)
  | float (v : ℚ)
deriving DecidableEq, Repr

/-! ## Units -/

inductive TruncUnit
  | microsecond | millisecond | second | minute | hour | day
deriving DecidableEq, Repr

inductive ExtractUnit
  | microsecond | millisecond | second | minute | hour | dow | epoch
deriving DecidableEq, Repr

/-- `date_trunc_unit_to_usecs`. -/
def TruncUnit.usecs : TruncUnit → ℤ
  | .microsecond => 1
  | .millisecond => 1000
  | .second => 1000000
  | .minute => 60000000
  | .hour => 3600000000
  | .day => 86400000000

theorem TruncUnit.usecs_pos (u : TruncUnit) : 0 < u.usecs := by
  cases u <;> simp [usecs]

/-- The expression of a GROUP BY column, as far as the compact path has it. -/
inductive GroupByExpr
  | column
  | dateTrunc (unit : TruncUnit)
  | extract (unit : ExtractUnit) (divisor : ℤ)
  | addConst (offset : ℤ)
deriving DecidableEq, Repr

structure GroupByColSpec where
  colIdx : ℕ
  typeOid : TypeOid
  expr : GroupByExpr
deriving DecidableEq, Repr

/-! ## The key of a row -/

/-- `extract_field_from_usecs`.  Division and remainder are Euclidean but for
the epoch, which truncates toward zero. -/
def extractFieldFromUsecs (pgUsec : ℤ) : ExtractUnit → ℤ
  | .microsecond =>
      let usecInDay := pgUsec % 86400000000
      usecInDay / 1000000 % 60 * 1000000 + usecInDay % 1000000
  | .millisecond =>
      let usecInDay := pgUsec % 86400000000
      usecInDay / 1000000 % 60 * 1000 + usecInDay % 1000000 / 1000
  | .second => pgUsec % 86400000000 / 1000000 % 60
  | .minute => pgUsec % 86400000000 / 60000000 % 60
  | .hour => pgUsec % 86400000000 / 3600000000
  | .dow => (pgUsec / 86400000000 + 6) % 7
  | .epoch => pgUsec.tdiv 1000000 + 946684800

def extractSubdayFromBigintScaled (value divisor : ℤ) (unit : ExtractUnit) : ℤ :=
  let secsInDay := value / divisor % 86400
  match unit with
  | .microsecond => secsInDay % 60 * 1000000
  | .millisecond => secsInDay % 60 * 1000
  | .second => secsInDay % 60
  | .minute => secsInDay / 60 % 60
  | .hour => secsInDay / 3600
  | _ => 0

def evalExtract (value divisor : ℤ) (unit : ExtractUnit) : ℤ :=
  if 0 < divisor then extractSubdayFromBigintScaled value divisor unit
  else extractFieldFromUsecs value unit

/-- One key of `build_packed_key`; products and sums wrap. -/
def groupKey (expr : GroupByExpr) (d : Datum) : BitVec 64 :=
  match expr with
  | .dateTrunc unit => BitVec.ofInt 64 (d.toInt / unit.usecs * unit.usecs)
  | .extract unit divisor => BitVec.ofInt 64 (evalExtract d.toInt divisor unit)
  | .addConst offset => BitVec.ofInt 64 (d.toInt + offset)
  | .column => d

def packIntKey1 (k0 : BitVec 64) : BitVec 128 := k0.setWidth 128

def packIntKeys2 (k0 k1 : BitVec 64) : BitVec 128 := k0.setWidth 128 ||| k1.setWidth 128 <<< 64

def unpackIntKeys (packed : BitVec 128) (numKeys : ℕ) : BitVec 64 × BitVec 64 :=
  (packed.setWidth 64, if 1 < numKeys then (packed >>> 64).setWidth 64 else 0)

/-- Key `gi` of an unpacked pair. -/
def keyAt (keys : BitVec 64 × BitVec 64) (gi : ℕ) : BitVec 64 := if gi = 0 then keys.1 else keys.2

def buildPackedKey (groupSpecs : List GroupByColSpec) (row : ℕ → Option Datum) :
    Option (BitVec 128) :=
  match groupSpecs.mapM fun gs => (row gs.colIdx).map (groupKey gs.expr) with
  | none => none
  | some [k0] => some (packIntKey1 k0)
  | some intKeys => some (packIntKeys2 (intKeys.getD 0 0) (intKeys.getD 1 0))

/-- What a group row shows for one of its keys: `extract` keys leave as
`numeric`, every other key as the word it is. -/
def groupOutput (expr : GroupByExpr) (k : BitVec 64) : SqlValue :=
  match expr with
  | .extract _ _ => .numeric k.toInt
  | _ => .word k.toInt

@[simp] theorem unpackIntKeys_packIntKey1 (k : BitVec 64) :
    (unpackIntKeys (packIntKey1 k) 1).1 = k := by
  simp [unpackIntKeys, packIntKey1]

@[simp] theorem unpackIntKeys_packIntKeys2 (k0 k1 : BitVec 64) :
    unpackIntKeys (packIntKeys2 k0 k1) 2 = (k0, k1) := by
  unfold unpackIntKeys packIntKeys2
  ext i hi
  · simp
  · have hword : i < 128 := by omega
    have hhigh : 64 + i < 128 := by omega
    simp [hword, hhigh, hi]

theorem groupOutput_injective (expr : GroupByExpr) : Function.Injective (groupOutput expr) := by
  intro k k' h
  apply BitVec.eq_of_toInt_eq
  cases expr with
  | extract unit divisor => simpa [groupOutput] using h
  | column => simpa [groupOutput] using h
  | dateTrunc unit => simpa [groupOutput] using h
  | addConst offset => simpa [groupOutput] using h

/-! ## Time expressions in PostgreSQL -/

/-- A time expression the GROUP BY gate lets through, over a `timestamp` or a
`timestamptz` column, or over `to_timestamp(col / divisor)` of a bigint column,
which it leaves to the executor for the calendar units. -/
inductive TimeCall
  | dateTrunc (unit : TruncUnit) (zoned : Bool)
  | extract (unit : ExtractUnit) (zoned : Bool)
  | extractScaled (unit : ExtractUnit) (divisor : ℤ) (hpos : 0 < divisor)
      (hunit : unit ≠ .dow ∧ unit ≠ .epoch)

def TimeCall.expr : TimeCall → GroupByExpr
  | .dateTrunc unit _ => .dateTrunc unit
  | .extract unit _ => .extract unit 0
  | .extractScaled unit divisor _ _ => .extract unit divisor

/-- The type the gate records: `numeric` for `extract`. -/
def TimeCall.typeOid : TimeCall → TypeOid
  | .dateTrunc _ true => .timestamptz
  | .dateTrunc _ false => .timestamp
  | _ => .other 1700

/-- `timestamp` values that stand for infinity. -/
abbrev infinities : List ℤ := [9223372036854775807, -9223372036854775808]

/-- The values a column can hold: an infinity or an instant in PostgreSQL's
range; for `to_timestamp` a bigint it does not reject. -/
def TimeCall.Holds : TimeCall → ℤ → Prop
  | .extractScaled _ divisor _ _, v =>
      -210866803200 ≤ v.tdiv divisor ∧ v.tdiv divisor < 9224318016000
  | _, v => v ∈ infinities ∨ (-211813488000000000 ≤ v ∧ v < 9223371331200000000)

/-- Microseconds the session clock shows beyond UTC, for a zone `zone` seconds
east; a `timestamp` is its own clock. -/
def clockOffset (zone : ℤ) (zoned : Bool) : ℤ := if zoned then zone * 1000000 else 0

/-- `date_trunc` in PostgreSQL: the start of the unit on the session clock. -/
def pgDateTrunc (offset v : ℤ) (unit : TruncUnit) : ℤ :=
  if v ∈ infinities then v else (v + offset) / unit.usecs * unit.usecs - offset

/-- A field of a clock reading, with its fraction. -/
def pgField (clock : ℤ) : ExtractUnit → ℚ
  | .microsecond => (clock % 60000000 : ℤ)
  | .millisecond => (clock % 60000000 : ℤ) / 1000
  | .second => (clock % 60000000 : ℤ) / 1000000
  | .minute => (clock / 60000000 % 60 : ℤ)
  | .hour => (clock / 3600000000 % 24 : ℤ)
  | .dow => ((clock / 86400000000 + 6) % 7 : ℤ)
  | .epoch => (clock + 946684800000000 : ℤ) / 1000000

/-- `extract` in PostgreSQL: the epoch is that of the instant, every other field
is read off the session clock and is NULL at an infinity. -/
def pgExtract (offset v : ℤ) (unit : ExtractUnit) : Option SqlValue :=
  if v ∈ infinities then
    if unit = .epoch then some (.numericInfinity (decide (v < 0))) else none
  else if unit = .epoch then some (.numeric (pgField v unit))
  else some (.numeric (pgField (v + offset) unit))

/-- `to_timestamp` of whole Unix seconds. -/
def toTimestamp (secs : ℤ) : ℤ := (secs - 946684800) * 1000000

/-- What PostgreSQL gives for a time expression; bigint division truncates. -/
def TimeCall.pgValue (zone : ℤ) : TimeCall → ℤ → Option SqlValue
  | .dateTrunc unit zoned, v => some (.word (pgDateTrunc (clockOffset zone zoned) v unit))
  | .extract unit zoned, v => pgExtract (clockOffset zone zoned) v unit
  | .extractScaled unit divisor _ _, v =>
      some (.numeric (pgField (toTimestamp (v.tdiv divisor) + zone * 1000000) unit))

/-! ## Where the two agree -/

/-- The field of a reading is the one of the reading `shift` microseconds
later.  A field with a fraction has to be whole; a cyclic field may not leave
its unit, counted around its cycle. -/
def FieldAgrees (clock shift : ℤ) : ExtractUnit → Prop
  | .microsecond => shift % 60000000 = 0
  | .millisecond => clock % 1000 = 0 ∧ shift % 60000000 = 0
  | .second => clock % 1000000 = 0 ∧ shift % 60000000 = 0
  | .minute => (clock % 60000000 + shift) % 3600000000 < 60000000
  | .hour => (clock % 3600000000 + shift) % 86400000000 < 3600000000
  | .dow => (clock % 86400000000 + shift) % 604800000000 < 86400000000
  | .epoch => clock % 1000000 = 0

/-- Seconds by which truncating division is ahead of floor division. -/
def truncationShift (v divisor : ℤ) : ℤ := if v < 0 ∧ v % divisor ≠ 0 then 1 else 0

/-- When a value's key stands for what PostgreSQL gives. -/
def TimeCall.Agrees (zone : ℤ) : TimeCall → ℤ → Prop
  | .dateTrunc unit zoned, v =>
      if v ∈ infinities then unit = .microsecond else clockOffset zone zoned % unit.usecs = 0
  | .extract unit zoned, v => v ∉ infinities ∧ FieldAgrees v (clockOffset zone zoned) unit
  | .extractScaled unit divisor _ _, v =>
      FieldAgrees (v / divisor * 1000000) ((truncationShift v divisor + zone) * 1000000) unit

theorem mul_ediv_eq_sub_emod (v u : ℤ) : v / u * u = v - v % u := by
  rw [Int.emod_def, Int.mul_comm u]
  omega

/-- The clock may be ahead by whole units only. -/
theorem trunc_eq_trunc_add_iff {u : ℤ} (hu : 0 < u) (v offset : ℤ) :
    v / u * u = (v + offset) / u * u - offset ↔ offset % u = 0 := by
  rw [mul_ediv_eq_sub_emod, mul_ediv_eq_sub_emod]
  have hv := Int.emod_nonneg v hu.ne'
  have hlt := Int.emod_lt_of_pos v hu
  constructor
  · intro h
    have hmod : (v + offset) % u = v % u := by omega
    have hzero : (v + offset - v) % u = 0 := Int.emod_eq_emod_iff_emod_sub_eq_zero.mp hmod
    rwa [show v + offset - v = offset by omega] at hzero
  · intro h
    have hmod : (v + offset) % u = v % u := by
      rw [Int.add_emod, h, Int.add_zero, Int.emod_emod_of_dvd _ (Int.dvd_refl u)]
    omega

theorem extractField_eq_pgField_iff {clock shift : ℤ} (hshift : shift % 1000000 = 0)
    {unit : ExtractUnit} (hunit : unit ≠ .epoch) :
    (extractFieldFromUsecs clock unit : ℚ) = pgField (clock + shift) unit ↔
      FieldAgrees clock shift unit := by
  cases unit with
  | microsecond =>
      simp only [extractFieldFromUsecs, pgField, FieldAgrees]
      norm_cast
      omega
  | millisecond =>
      simp only [extractFieldFromUsecs, pgField, FieldAgrees]
      rw [eq_div_iff (by norm_num)]
      norm_cast
      omega
  | second =>
      simp only [extractFieldFromUsecs, pgField, FieldAgrees]
      rw [eq_div_iff (by norm_num)]
      norm_cast
      omega
  | minute =>
      simp only [extractFieldFromUsecs, pgField, FieldAgrees]
      norm_cast
      omega
  | hour =>
      simp only [extractFieldFromUsecs, pgField, FieldAgrees]
      norm_cast
      omega
  | dow =>
      simp only [extractFieldFromUsecs, pgField, FieldAgrees]
      norm_cast
      omega
  | epoch => exact absurd rfl hunit

theorem tdiv_eq_ediv_add_truncationShift {divisor : ℤ} (hpos : 0 < divisor) (v : ℤ) :
    v.tdiv divisor = v / divisor + truncationShift v divisor := by
  rw [Int.tdiv_eq_ediv, truncationShift, Int.sign_eq_one_of_pos hpos]
  by_cases hv : v < 0
  · by_cases hmod : v % divisor = 0
    · simp [hmod, Int.dvd_of_emod_eq_zero hmod]
    · have hdvd : ¬ divisor ∣ v := fun h => hmod (Int.emod_eq_zero_of_dvd h)
      simp [hv, hmod, hdvd]
  · simp [hv, show 0 ≤ v by omega]

theorem extractEpoch_eq_pgField_iff (v shift : ℤ) :
    (extractFieldFromUsecs v .epoch : ℚ) = pgField v .epoch ↔ FieldAgrees v shift .epoch := by
  simp only [extractFieldFromUsecs, pgField, FieldAgrees]
  rw [eq_div_iff (by norm_num), tdiv_eq_ediv_add_truncationShift (by norm_num), truncationShift]
  norm_cast
  split <;> omega

theorem pgField_add_days {unit : ExtractUnit} (hunit : unit ≠ .dow ∧ unit ≠ .epoch)
    (clock days : ℤ) : pgField (clock + days * 86400000000) unit = pgField clock unit := by
  cases unit with
  | microsecond =>
      simp only [pgField]
      norm_cast
      omega
  | millisecond =>
      simp only [pgField]
      congr 2
      omega
  | second =>
      simp only [pgField]
      congr 2
      omega
  | minute =>
      simp only [pgField]
      norm_cast
      omega
  | hour =>
      simp only [pgField]
      norm_cast
      omega
  | dow => exact absurd rfl hunit.1
  | epoch => exact absurd rfl hunit.2

theorem extractSubday_eq_extractField {unit : ExtractUnit}
    (hunit : unit ≠ .dow ∧ unit ≠ .epoch) (v divisor : ℤ) :
    extractSubdayFromBigintScaled v divisor unit =
      extractFieldFromUsecs (v / divisor * 1000000) unit := by
  cases unit with
  | dow => exact absurd rfl hunit.1
  | epoch => exact absurd rfl hunit.2
  | _ =>
      simp only [extractSubdayFromBigintScaled, extractFieldFromUsecs]
      omega

theorem extractSubday_eq_pgField_iff {unit : ExtractUnit}
    (hunit : unit ≠ .dow ∧ unit ≠ .epoch) {divisor : ℤ} (hpos : 0 < divisor) (zone v : ℤ) :
    (extractSubdayFromBigintScaled v divisor unit : ℚ) =
        pgField (toTimestamp (v.tdiv divisor) + zone * 1000000) unit ↔
      FieldAgrees (v / divisor * 1000000) ((truncationShift v divisor + zone) * 1000000) unit := by
  have hclock : toTimestamp (v.tdiv divisor) + zone * 1000000 =
      v / divisor * 1000000 + (truncationShift v divisor + zone) * 1000000 +
        (-10957) * 86400000000 := by
    rw [tdiv_eq_ediv_add_truncationShift hpos, toTimestamp]
    omega
  rw [hclock, pgField_add_days hunit, extractSubday_eq_extractField hunit]
  exact extractField_eq_pgField_iff (by omega) hunit.2

theorem toInt_ofInt_of_fits {x : ℤ} (hlow : -9223372036854775808 ≤ x)
    (hhigh : x < 9223372036854775808) : (BitVec.ofInt 64 x).toInt = x := by
  rw [BitVec.toInt_ofInt]
  exact Int.bmod_eq_of_le (by norm_num; omega) (by norm_num; omega)

theorem evalExtract_fits (d : Datum) (divisor : ℤ) (unit : ExtractUnit) :
    -9223372036854775808 ≤ evalExtract d.toInt divisor unit ∧
      evalExtract d.toInt divisor unit < 9223372036854775808 := by
  have hlow := BitVec.le_toInt d
  have hhigh := BitVec.toInt_lt (x := d)
  have htrunc : d.toInt.tdiv 1000000 = d.toInt / 1000000 + truncationShift d.toInt 1000000 :=
    tdiv_eq_ediv_add_truncationShift (by norm_num) _
  have hshift : truncationShift d.toInt 1000000 = 0 ∨ truncationShift d.toInt 1000000 = 1 := by
    unfold truncationShift
    split <;> simp
  unfold evalExtract
  split
  · cases unit <;> simp only [extractSubdayFromBigintScaled] <;> omega
  · cases unit <;> simp only [extractFieldFromUsecs] <;> omega

theorem truncated_infinity_iff {v : ℤ} (hv : v ∈ infinities) (unit : TruncUnit) :
    (BitVec.ofInt 64 (v / unit.usecs * unit.usecs)).toInt = v ↔ unit = .microsecond := by
  rcases List.mem_cons.mp hv with rfl | hv
  · cases unit <;> decide
  · rw [List.mem_singleton.mp hv]
    cases unit <;> decide

theorem truncated_fits {v : ℤ} (hlow : -211813488000000000 ≤ v) (hhigh : v < 9223371331200000000)
    (unit : TruncUnit) :
    (BitVec.ofInt 64 (v / unit.usecs * unit.usecs)).toInt = v / unit.usecs * unit.usecs := by
  apply toInt_ofInt_of_fits
  · cases unit <;> simp only [TruncUnit.usecs] <;> omega
  · cases unit <;> simp only [TruncUnit.usecs] <;> omega

theorem groupOutput_eq_pgValue_iff (zone : ℤ) (call : TimeCall) {d : Datum}
    (hd : call.Holds d.toInt) :
    some (groupOutput call.expr (groupKey call.expr d)) = call.pgValue zone d.toInt ↔
      call.Agrees zone d.toInt := by
  cases call with
  | dateTrunc unit zoned =>
      simp only [TimeCall.expr, groupOutput, groupKey, TimeCall.pgValue, TimeCall.Agrees,
        pgDateTrunc, Option.some.injEq, SqlValue.word.injEq]
      by_cases hinf : d.toInt ∈ infinities
      · rw [if_pos hinf, if_pos hinf]
        exact truncated_infinity_iff hinf unit
      · rw [if_neg hinf, if_neg hinf]
        have hrange := hd.resolve_left hinf
        rw [truncated_fits hrange.1 hrange.2]
        exact trunc_eq_trunc_add_iff unit.usecs_pos _ _
  | extract unit zoned =>
      have hfits := evalExtract_fits d 0 unit
      simp only [TimeCall.expr, groupOutput, groupKey, TimeCall.pgValue, TimeCall.Agrees,
        toInt_ofInt_of_fits hfits.1 hfits.2]
      have heval : evalExtract d.toInt 0 unit = extractFieldFromUsecs d.toInt unit := by
        simp [evalExtract]
      rw [heval, pgExtract]
      by_cases hinf : d.toInt ∈ infinities
      · rw [if_pos hinf]
        by_cases hepoch : unit = .epoch <;> simp [hinf, hepoch]
      · rw [if_neg hinf]
        by_cases hepoch : unit = .epoch
        · subst hepoch
          simpa [hinf] using extractEpoch_eq_pgField_iff d.toInt _
        · have hshift : clockOffset zone zoned % 1000000 = 0 := by
            unfold clockOffset
            split <;> omega
          simpa [hinf, hepoch] using extractField_eq_pgField_iff hshift hepoch
  | extractScaled unit divisor hpos hunit =>
      have hfits := evalExtract_fits d divisor unit
      simp only [TimeCall.expr, groupOutput, groupKey, TimeCall.pgValue, TimeCall.Agrees,
        toInt_ofInt_of_fits hfits.1 hfits.2, Option.some.injEq, SqlValue.numeric.injEq]
      rw [evalExtract, if_pos hpos]
      exact extractSubday_eq_pgField_iff hunit hpos zone d.toInt

/-! ## Whole rows -/

structure TimeGrouping where
  calls : List (ℕ × TimeCall)
  nonempty : calls ≠ []
  atMostTwo : calls.length ≤ 2

def TimeGrouping.groupSpecs (g : TimeGrouping) : List GroupByColSpec :=
  g.calls.map fun c => ⟨c.1, c.2.typeOid, c.2.expr⟩

/-- A row of the table, with values the columns can hold. -/
structure TimeRow (g : TimeGrouping) where
  value : ℕ → Datum
  holds : ∀ c ∈ g.calls, c.2.Holds (value c.1).toInt

def TimeGrouping.packedKey (g : TimeGrouping) (row : TimeRow g) : Option (BitVec 128) :=
  buildPackedKey g.groupSpecs fun col => some (row.value col)

def groupOutputs (groupSpecs : List GroupByColSpec) (packed : BitVec 128) : List SqlValue :=
  groupSpecs.mapIdx fun gi gs => groupOutput gs.expr (keyAt (unpackIntKeys packed groupSpecs.length) gi)

def TimeGrouping.pgValues (g : TimeGrouping) (zone : ℤ) (row : TimeRow g) :
    List (Option SqlValue) :=
  g.calls.map fun c => c.2.pgValue zone (row.value c.1).toInt

/-- The grouping PostgreSQL makes: rows share a key when they share the values
of the expressions, and the group shows those values. -/
def GroupsAsPg (g : TimeGrouping) (zone : ℤ) (rows : List (TimeRow g)) : Prop :=
  (∀ row ∈ rows, ∀ row' ∈ rows,
    g.packedKey row = g.packedKey row' ↔ g.pgValues zone row = g.pgValues zone row') ∧
  ∀ row ∈ rows, ∃ packed, g.packedKey row = some packed ∧
    (groupOutputs g.groupSpecs packed).map some = g.pgValues zone row

def TimeGrouping.outputs (g : TimeGrouping) (row : TimeRow g) : List SqlValue :=
  g.calls.map fun c => groupOutput c.2.expr (groupKey c.2.expr (row.value c.1))

theorem packedKey_spec (g : TimeGrouping) (row : TimeRow g) :
    ∃ packed, g.packedKey row = some packed ∧ groupOutputs g.groupSpecs packed = g.outputs row := by
  obtain ⟨calls, hne, hle⟩ := g
  match calls, hne, hle with
  | [c], _, _ =>
      refine ⟨packIntKey1 (groupKey c.2.expr (row.value c.1)), rfl, ?_⟩
      simp [groupOutputs, TimeGrouping.groupSpecs, TimeGrouping.outputs, keyAt]
  | [c, c'], _, _ =>
      refine ⟨packIntKeys2 (groupKey c.2.expr (row.value c.1))
        (groupKey c'.2.expr (row.value c'.1)), rfl, ?_⟩
      simp [groupOutputs, TimeGrouping.groupSpecs, TimeGrouping.outputs, keyAt]
  | _ :: _ :: _ :: _, _, hle => simp at hle

theorem packedKey_eq_iff (g : TimeGrouping) (row row' : TimeRow g) :
    g.packedKey row = g.packedKey row' ↔ g.outputs row = g.outputs row' := by
  constructor
  · intro h
    obtain ⟨packed, hpacked, houtputs⟩ := packedKey_spec g row
    obtain ⟨packed', hpacked', houtputs'⟩ := packedKey_spec g row'
    rw [hpacked, hpacked', Option.some.injEq] at h
    rw [← houtputs, ← houtputs', h]
  · intro h
    -- Equal outputs come from equal keys, and the packed key is made of nothing else.
    have hkeys : ∀ c ∈ g.calls,
        groupKey c.2.expr (row.value c.1) = groupKey c.2.expr (row'.value c.1) :=
      fun c hc => groupOutput_injective _ (List.map_inj_left.mp h c hc)
    have hmap : ∀ r : TimeRow g,
        (g.groupSpecs.mapM fun gs => (some (r.value gs.colIdx)).map (groupKey gs.expr)) =
          some (g.groupSpecs.map fun gs => groupKey gs.expr (r.value gs.colIdx)) :=
      fun r => List.mapM_pure
    have hsame : (g.groupSpecs.map fun gs => groupKey gs.expr (row.value gs.colIdx)) =
        g.groupSpecs.map fun gs => groupKey gs.expr (row'.value gs.colIdx) := by
      apply List.map_congr_left
      intro gs hgs
      obtain ⟨c, hc, rfl⟩ := List.mem_map.mp hgs
      exact hkeys c hc
    unfold TimeGrouping.packedKey buildPackedKey
    rw [hmap, hmap, hsame]

/-- The packed keys of a time grouping group the rows as PostgreSQL does, and
show its values, exactly when every value of every row agrees. -/
theorem groupsAsPg_iff_agrees (g : TimeGrouping) (zone : ℤ) (rows : List (TimeRow g)) :
    GroupsAsPg g zone rows ↔
      ∀ row ∈ rows, ∀ c ∈ g.calls, c.2.Agrees zone (row.value c.1).toInt := by
  have hrow : ∀ row : TimeRow g, (g.outputs row).map some = g.pgValues zone row ↔
      ∀ c ∈ g.calls, c.2.Agrees zone (row.value c.1).toInt := by
    intro row
    unfold TimeGrouping.outputs TimeGrouping.pgValues
    rw [List.map_map, List.map_inj_left]
    exact forall₂_congr fun c hc => groupOutput_eq_pgValue_iff zone c.2 (row.holds c hc)
  constructor
  · rintro ⟨-, hshown⟩ row hmem
    obtain ⟨packed, hpacked, hvalues⟩ := hshown row hmem
    obtain ⟨packed', hpacked', houtputs⟩ := packedKey_spec g row
    rw [hpacked, Option.some.injEq] at hpacked'
    rw [hpacked', houtputs] at hvalues
    exact (hrow row).mp hvalues
  · intro h
    have hvalues : ∀ row ∈ rows, (g.outputs row).map some = g.pgValues zone row :=
      fun row hmem => (hrow row).mpr (h row hmem)
    constructor
    · intro row hmem row' hmem'
      rw [packedKey_eq_iff, ← hvalues row hmem, ← hvalues row' hmem']
      exact (List.map_injective_iff.mpr (Option.some_injective _)).eq_iff.symm
    · intro row hmem
      obtain ⟨packed, hpacked, houtputs⟩ := packedKey_spec g row
      exact ⟨packed, hpacked, by rw [houtputs]; exact hvalues row hmem⟩

/-- `GROUP BY date_trunc('day', ts)` over a `timestamptz` column. -/
def dayGrouping : TimeGrouping := ⟨[(0, .dateTrunc .day true)], by simp, by simp⟩

def millenniumRow : TimeRow dayGrouping := ⟨fun _ => 0, by simp [dayGrouping, TimeCall.Holds]⟩

/-- In a zone five and a half hours east the day of that row starts at 18:30 UTC
of the day before; the key says midnight UTC. -/
theorem not_groupsAsPg_in_zone_ahead : ¬ GroupsAsPg dayGrouping 19800 [millenniumRow] := by
  rintro ⟨-, hshown⟩
  obtain ⟨packed, hpacked, hvalues⟩ := hshown millenniumRow (by simp)
  have hkey : dayGrouping.packedKey millenniumRow = some 0 := by decide
  rw [hkey, Option.some.injEq] at hpacked
  rw [← hpacked] at hvalues
  revert hvalues
  decide

end DeltaX.Agg
