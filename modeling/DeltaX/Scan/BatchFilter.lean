import DeltaX.Scan.LikeMatch
/-!
# What a batch qual selects

A batch qual is evaluated on the words of a column, at the width of the column's
type, and on texts as they are.  PostgreSQL compares values: its floats are
totally ordered with every NaN at the top, and `false` comes before `true`.  This
module says for which values and constants the two are the same.
-/

namespace DeltaX.Scan

open Column MinMax Support.KeySpan Support.IeeeOrder

/-! ## Evaluation -/

/-- A comparison of `f32` or `f64` values: with a NaN on a side only `!=` holds. -/
def ieeeHolds (f : Format) (cmp : Comparison) (v c : Pattern f) : Bool :=
  if isNan f v || isNan f c then decide (cmp = .ne)
  else decide (cmp.Holds (rank f v) (rank f c))

/-- `apply_batch_filter_bool`: every operator but `<>` is taken for `=`. -/
def boolHolds (cmp : Comparison) (v c : Bool) : Bool :=
  if cmp = .ne then decide (v ≠ c) else decide (v = c)

/-- `apply_batch_filter_i64` and its siblings on one value, by type. -/
def applyBatchFilter (ty : TypeOid) (cmp : Comparison) (constant d : Datum) : Bool :=
  match ty with
  | .int8 | .timestamp | .timestamptz => decide (cmp.Holds d.toInt constant.toInt)
  | .int4 | .date => decide (cmp.Holds (d.setWidth 32).toInt (constant.setWidth 32).toInt)
  | .int2 => decide (cmp.Holds (d.setWidth 16).toInt (constant.setWidth 16).toInt)
  | .float8 => ieeeHolds binary64 cmp d constant
  | .float4 => ieeeHolds binary32 cmp (d.setWidth 32) (constant.setWidth 32)
  | .bool => boolHolds cmp (decide (d ≠ 0)) (decide (constant ≠ 0))
  -- other types are skipped
  | _ => true

def applyBatchFilterInList (values : List Datum) (ty : TypeOid) (d : Datum) : Bool :=
  match ty with
  | .int2 => decide (d.setWidth 16 ∈ values.map fun v => v.setWidth 16)
  | .int4 | .date => decide (d.setWidth 32 ∈ values.map fun v => v.setWidth 32)
  | .int8 | .timestamp | .timestamptz => decide (d ∈ values)
  | _ => true

def PlanQual.accepts (q : PlanQual) : ElemValue → Bool
  | .datum d =>
      match q.op.comparison with
      | some cmp => applyBatchFilter q.typeOid cmp q.constDatum d
      | none => (q.inListI64.map fun values => applyBatchFilterInList values q.typeOid d).getD true
  | .text s =>
      match q.op with
      | .like => (q.likeStrategy.map fun st => likeStrategyMatches st s).getD true
      | .notLike => (q.likeStrategy.map fun st => !likeStrategyMatches st s).getD true
      | .inList => (q.inListText.map fun values => decide (s ∈ values)).getD true
      | .eq => (q.textConst.map fun c => decide (s = c)).getD true
      | .ne => (q.textConst.map fun c => decide (s ≠ c)).getD true
      | _ => true

/-- NULL is never selected. -/
def PlanQual.selects (q : PlanQual) (cell : Option ElemValue) : Bool := cell.any q.accepts

/-! ## Columns of a segment -/

/-- The filter a qual is dispatched to, where there is one; it answers nothing where the code is
`unreachable!()`. -/
def batchFilter (q : PlanQual) : Option (Datum → Option Bool) :=
  match q.op with
  | .inList =>
      if isNumericIn q.typeOid then
        q.inListI64.map fun values d => some (applyBatchFilterInList values q.typeOid d)
      else none
  | op =>
      if isBatchComparableType q.typeOid then
        some fun d => op.comparison.map fun cmp => applyBatchFilter q.typeOid cmp q.constDatum d
      else none

/-- The loop of the filters: a selected row stays so when it is not NULL and passes.  More cells
than rows are an index out of bounds. -/
def applyBatchFilterTyped (accepts : Datum → Option Bool) :
    List (Datum × Bool) → List Bool → Option (List Bool)
  | [], sel => some sel
  | _ :: _, [] => none
  | (d, isNull) :: col, s :: sel => do
      let kept ← if s && !isNull then accepts d else some false
      let rest ← applyBatchFilterTyped accepts col sel
      some (kept :: rest)

/-- One round of the loop over the quals.  A column that was not decompressed is empty. -/
def applyQual (currentSegment : List (List (Datum × Bool))) (sel : List Bool) (q : PlanQual) :
    Option (List Bool) := do
  let col ← currentSegment[q.colIdx]?
  if col = [] then some sel
  else match batchFilter q with
    | some accepts => applyBatchFilterTyped accepts col sel
    | none => some sel

def evaluateBatchQuals (currentSegment : List (List (Datum × Bool))) (rowCount : ℕ)
    (batchQuals : List PlanQual) (preSelection : List Bool) : Option (List Bool) :=
  if batchQuals = [] ∧ preSelection = [] then some []
  else batchQuals.foldlM (applyQual currentSegment)
    (if preSelection = [] then List.replicate rowCount true else preSelection)

/-- A decompressed cell; the word of a text is an address. -/
def cellWord : Option ElemValue → Datum × Bool
  | none => (0, true)
  | some v => (v.asDatum.getD 0, false)

theorem applyBatchFilterTyped_eq (accepts : Datum → Bool) {col : List (Datum × Bool)}
    {sel : List Bool} (h : col.length = sel.length) :
    applyBatchFilterTyped (fun d => some (accepts d)) col sel =
      some (List.zipWith (fun s cell => s && (!cell.2 && accepts cell.1)) sel col) := by
  induction col generalizing sel with
  | nil => rw [List.eq_nil_of_length_eq_zero h.symm, applyBatchFilterTyped, List.zipWith_nil_left]
  | cons cell col ih =>
      obtain ⟨d, isNull⟩ := cell
      cases sel with
      | nil => cases h
      | cons s sel =>
          rw [applyBatchFilterTyped, ih (Nat.succ.inj h), List.zipWith_cons_cons]
          cases s <;> cases isNull <;> rfl

/-! ## PostgreSQL's order -/

/-- The place of a word among the values of its type. -/
def sqlKey (ty : TypeOid) (d : Datum) : WithTop ℤ :=
  match ty with
  | .int2 => (((d.setWidth 16).toInt : ℤ) : WithTop ℤ)
  | .int4 | .date => (((d.setWidth 32).toInt : ℤ) : WithTop ℤ)
  | .int8 | .timestamp | .timestamptz => ((d.toInt : ℤ) : WithTop ℤ)
  | .float4 => rank binary32 (d.setWidth 32)
  | .float8 => rank binary64 d
  | .bool => (((if d = 0 then 0 else 1) : ℤ) : WithTop ℤ)
  | _ => 0

/-- The constants with which an IEEE comparison is PostgreSQL's. -/
def FloatComparison (f : Format) (cmp : Comparison) (c : Pattern f) : Prop :=
  if isNan f c then cmp = .gt else cmp = .eq ∨ cmp = .ne ∨ cmp = .lt ∨ cmp = .le

/-- The constants with which comparing for equality is PostgreSQL's comparison. -/
def BoolComparison (cmp : Comparison) (c : Bool) : Prop :=
  cmp = .eq ∨ cmp = .ne ∨ (cmp = .le ∧ c = false) ∨ (cmp = .ge ∧ c = true)

/-- The constants a comparison of the type is evaluated with as PostgreSQL does. -/
def ExactComparison (ty : TypeOid) (cmp : Comparison) (c : Datum) : Prop :=
  match ty with
  | .float8 => FloatComparison binary64 cmp c
  | .float4 => FloatComparison binary32 cmp (c.setWidth 32)
  | .bool => BoolComparison cmp (decide (c ≠ 0))
  | _ => True

def NanExact (cmp : Comparison) (vNan cNan : Bool) : Prop :=
  match vNan, cNan with
  | false, false => True
  | true, false => cmp ≠ .gt ∧ cmp ≠ .ge
  | false, true => cmp ≠ .lt ∧ cmp ≠ .le
  | true, true => cmp = .lt ∨ cmp = .gt

def BoolExact (cmp : Comparison) (v c : Bool) : Prop :=
  match cmp with
  | .eq | .ne => True
  | .lt => v = true ∧ c = false
  | .gt => v = false ∧ c = true
  | .le => ¬ (v = false ∧ c = true)
  | .ge => ¬ (v = true ∧ c = false)

/-- A constant of the column's own type is compared as PostgreSQL does. -/
def WordExact (ty : TypeOid) (cmp : Comparison) (v word : Datum) : Prop :=
  match ty with
  | .float8 => NanExact cmp (isNan binary64 v) (isNan binary64 word)
  | .float4 => NanExact cmp (isNan binary32 (v.setWidth 32)) (isNan binary32 (word.setWidth 32))
  | .bool => BoolExact cmp (decide (v ≠ 0)) (decide (word ≠ 0))
  | _ => True

/-! ## Where they agree -/

theorem holds_coe (cmp : Comparison) (a b : ℤ) :
    cmp.Holds (a : WithTop ℤ) (b : WithTop ℤ) ↔ cmp.Holds a b := by
  cases cmp <;> simp [Comparison.Holds]

theorem ieeeHolds_iff_nanExact {f : Format} (cmp : Comparison) (v c : Pattern f) :
    (ieeeHolds f cmp v c = true ↔ cmp.Holds (rank f v) (rank f c)) ↔
      NanExact cmp (isNan f v) (isNan f c) := by
  unfold ieeeHolds
  cases hv : isNan f v with
  | true =>
      cases hc : isNan f c with
      | true =>
          rw [rank_of_isNan hv, rank_of_isNan hc]
          cases cmp <;> simp [NanExact, Comparison.Holds]
      | false =>
          rw [rank_of_isNan hv, rank_of_not_isNan hc]
          cases cmp <;> simp [NanExact, Comparison.Holds]
  | false =>
      cases hc : isNan f c with
      | true =>
          rw [rank_of_not_isNan hv, rank_of_isNan hc]
          cases cmp <;> simp [NanExact, Comparison.Holds]
      | false => simp [NanExact]

theorem boolHolds_iff_boolExact (cmp : Comparison) (v c : Datum) :
    (boolHolds cmp (decide (v ≠ 0)) (decide (c ≠ 0)) = true ↔
        cmp.Holds (sqlKey .bool v) (sqlKey .bool c)) ↔
      BoolExact cmp (decide (v ≠ 0)) (decide (c ≠ 0)) := by
  simp only [sqlKey, holds_coe]
  by_cases hv : v = 0#64 <;> by_cases hc : c = 0#64 <;> cases cmp <;>
    simp [hv, hc, boolHolds, BoolExact, Comparison.Holds]

/-- Where a comparison with a constant of the column's type is PostgreSQL's. -/
theorem applyBatchFilter_iff_sqlKey {ty : TypeOid} (hty : isBatchComparableType ty = true)
    (cmp : Comparison) (word v : Datum) :
    (applyBatchFilter ty cmp word v = true ↔ cmp.Holds (sqlKey ty v) (sqlKey ty word)) ↔
      WordExact ty cmp v word := by
  cases ty with
  | float8 => exact ieeeHolds_iff_nanExact (f := binary64) cmp v word
  | float4 => exact ieeeHolds_iff_nanExact cmp _ _
  | bool => exact boolHolds_iff_boolExact cmp v word
  | int2 | int4 | int8 | date | timestamp | timestamptz =>
      refine iff_of_true ?_ trivial
      simp only [applyBatchFilter, sqlKey, holds_coe, decide_eq_true_eq]
  | time | text | varchar | bpchar | other => cases hty

theorem FloatComparison.nanExact {f : Format} {cmp : Comparison} {c : Pattern f}
    (h : FloatComparison f cmp c) (vNan : Bool) : NanExact cmp vNan (isNan f c) := by
  unfold FloatComparison at h
  cases hc : isNan f c with
  | true =>
      -- nothing is greater than a NaN
      rw [hc, if_pos rfl] at h
      subst h
      cases vNan <;> simp [NanExact]
  | false =>
      simp only [hc, Bool.false_eq_true, if_false] at h
      cases vNan with
      | true => rcases h with rfl | rfl | rfl | rfl <;> simp [NanExact]
      | false => exact trivial

theorem BoolComparison.boolExact {cmp : Comparison} {c : Bool} (h : BoolComparison cmp c)
    (v : Bool) : BoolExact cmp v c := by
  rcases h with rfl | rfl | ⟨rfl, rfl⟩ | ⟨rfl, rfl⟩ <;> simp [BoolExact]

theorem ExactComparison.wordExact {ty : TypeOid} {cmp : Comparison} {c : Datum}
    (h : ExactComparison ty cmp c) (d : Datum) : WordExact ty cmp d c := by
  cases ty with
  | float8 | float4 => exact FloatComparison.nanExact h _
  | bool => exact BoolComparison.boolExact h _
  | int2 | int4 | int8 | date | time | timestamp | timestamptz | text | varchar | bpchar | other =>
      exact trivial

/-- With such constants a comparison selects what PostgreSQL's does. -/
theorem applyBatchFilter_iff {ty : TypeOid} (hty : isBatchComparableType ty = true)
    {cmp : Comparison} {c : Datum} (h : ExactComparison ty cmp c) (d : Datum) :
    applyBatchFilter ty cmp c d = true ↔ cmp.Holds (sqlKey ty d) (sqlKey ty c) :=
  (applyBatchFilter_iff_sqlKey hty cmp c d).mpr (h.wordExact d)

theorem applyBatchFilterInList_iff {ty : TypeOid} (hty : isNumericIn ty = true)
    (values : List Datum) (d : Datum) :
    applyBatchFilterInList values ty d = true ↔ ∃ c ∈ values, sqlKey ty d = sqlKey ty c := by
  cases ty with
  | int2 | int4 | int8 | date | timestamp | timestamptz =>
      simp only [applyBatchFilterInList, sqlKey, decide_eq_true_eq, List.mem_map,
        WithTop.coe_inj, BitVec.toInt_inj, exists_eq_right', @eq_comm (BitVec _) (d.setWidth _)]
  | float4 | float8 | bool | time | text | varchar | bpchar | other => cases hty

end DeltaX.Scan
