import DeltaX.Stats.Encoding
import DeltaX.Support.Wrapping
import Mathlib.Logic.Function.Basic
/-!
# Column statistics written with a segment

`flush_segment_metadata` writes one `_meta` row and, for each column that is not
a segment-by column, one `_colstats` row.  The counts of a colstats row come
from a different rule (`supports_sum`) than its bounds (`supports_minmax`), and
they are looked up by column name.  The decimal `_sum` itself is not kept here:
nothing modelled reads it.
-/

namespace DeltaX.Stats.Colstats

open Column Encoding Support.IeeeOrder Support.Wrapping

/-- The counting loop shared by the branches of `compute_typed_sum`: values that
are not NULL, and those among them that are not zero (not empty, for text). -/
def countValues {α : Type*} (nonzero : α → Bool) (values : List (Option α)) : ℤ × ℤ :=
  values.reduceOption.foldl
    (fun acc v => (acc.1 + 1, if nonzero v then acc.2 + 1 else acc.2)) (0, 0)

/-- `compute_typed_sum`, its two counts.  A float is zero by IEEE comparison. -/
def computeTypedSum : TypedColumn → ℤ × ℤ
  | .int16 values => countValues (fun v => v ≠ 0) values
  | .int32 values => countValues (fun v => v ≠ 0) values
  | .int64 values => countValues (fun v => v ≠ 0) values
  | .float32 values => countValues (fun v => magnitude (w := 31) v ≠ 0) values
  | .float64 values => countValues (fun v => magnitude (w := 63) v ≠ 0) values
  | .text values => countValues (fun v => v ≠ []) values
  | .bool _ => (0, 0)
  | .bytes _ => (0, 0)

structure ColstatsRow where
  colIdx : ℕ
  segmentId : ℤ
  minVal : Option ℤ
  maxVal : Option ℤ
  nonnullCount : ℤ
  nonzeroCount : ℤ
  ndistinct : ℤ
deriving DecidableEq, Repr

structure MetaRow where
  segmentId : ℤ
  segmentValues : List (Option Text)
  rowCount : ℤ
deriving DecidableEq, Repr

/-- The `col_sums` map: keyed by name, so a later column of the same name
replaces an earlier one. -/
def colSums (cols : List (ColumnMeta × TypedColumn)) : Text → Option (ℤ × ℤ) :=
  cols.foldl (fun sums col =>
      if !col.1.isSegmentBy && col.1.dataType.supportsSum then
        Function.update sums col.1.name (some (computeTypedSum col.2))
      else sums)
    fun _ => none

/-- The colstats row of one column: bounds under `supports_minmax`, counts under
`supports_sum`, both zero without it. -/
def colstatsRow (sums : Text → Option (ℤ × ℤ)) (segmentId : ℤ) (colIdx : ℕ) (nd : ℤ)
    (col : ColumnMeta) (data : TypedColumn) : ColstatsRow :=
  let bounds := computeMinmaxEncodedI64 data col.dataType
  let counts := if col.dataType.supportsSum then (sums col.name).getD (0, 0) else (0, 0)
  { colIdx := colIdx
    segmentId := segmentId
    minVal := bounds.1
    maxVal := bounds.2
    nonnullCount := wrapI32 counts.1
    nonzeroCount := wrapI32 counts.2
    ndistinct := nd }

def colstatsRows (sums : Text → Option (ℤ × ℤ)) (segmentId : ℤ) :
    ℕ → List ℤ → List (ColumnMeta × TypedColumn) → List ColstatsRow
  | _, _, [] => []
  | colIdx, nds, (col, data) :: rest =>
      if col.isSegmentBy then colstatsRows sums segmentId colIdx nds rest
      else
        colstatsRow sums segmentId colIdx (nds.headD 0) col data ::
          colstatsRows sums segmentId (colIdx + 1) nds.tail rest

def flushSegmentMetadata (cols : List (ColumnMeta × TypedColumn))
    (segmentByValues : List (Option Text)) (ndistinctValues : List ℤ) (rowCount : ℕ)
    (segmentId : ℤ) : MetaRow × List ColstatsRow :=
  (⟨segmentId, segmentByValues, rowCount⟩,
    colstatsRows (colSums cols) segmentId 0 ndistinctValues cols)

/-! ## The rows -/

theorem mem_colstatsRows_iff (sums : Text → Option (ℤ × ℤ)) (segmentId : ℤ) (start : ℕ)
    (nds : List ℤ) (cols : List (ColumnMeta × TypedColumn)) (row : ColstatsRow) :
    row ∈ colstatsRows sums segmentId start nds cols ↔
      ∃ j col data, (cols.filter fun c => !c.1.isSegmentBy)[j]? = some (col, data) ∧
        row = colstatsRow sums segmentId (start + j) (nds.getD j 0) col data := by
  induction cols generalizing start nds with
  | nil => simp [colstatsRows]
  | cons c cols ih =>
      obtain ⟨col, data⟩ := c
      unfold colstatsRows
      cases hseg : col.isSegmentBy with
      | true => simp [ih, hseg]
      | false =>
          simp only [Bool.false_eq_true, if_false, List.mem_cons, ih, hseg, Bool.not_false,
            List.filter_cons_of_pos]
          constructor
          · rintro (rfl | ⟨j, col', data', hget, rfl⟩)
            · exact ⟨0, col, data, rfl, by cases nds <;> rfl⟩
            · refine ⟨j + 1, col', data', by simpa using hget, ?_⟩
              rw [show start + 1 + j = start + (j + 1) by omega]
              cases nds <;> rfl
          · rintro ⟨j, col', data', hget, rfl⟩
            cases j with
            | zero =>
                cases hget
                exact .inl (by cases nds <;> rfl)
            | succ j =>
                refine .inr ⟨j, col', data', by simpa using hget, ?_⟩
                rw [show start + 1 + j = start + (j + 1) by omega]
                cases nds <;> rfl

/-! ## The counts -/

private theorem foldl_countValues {α : Type*} (nonzero : α → Bool) (values : List α)
    (acc : ℤ × ℤ) :
    values.foldl (fun acc v => (acc.1 + 1, if nonzero v then acc.2 + 1 else acc.2)) acc =
      (acc.1 + values.length, acc.2 + (values.filter nonzero).length) := by
  induction values generalizing acc with
  | nil => simp
  | cons v values ih =>
      rw [List.foldl_cons, ih]
      by_cases hv : nonzero v <;> simp [hv] <;> omega

theorem countValues_eq {α : Type*} (nonzero : α → Bool) (values : List (Option α)) :
    countValues nonzero values =
      ((values.reduceOption.length : ℤ), ((values.reduceOption.filter nonzero).length : ℤ)) := by
  rw [countValues, foldl_countValues]
  simp

theorem countValues_eq_length_iff {α : Type*} (nonzero : α → Bool) (values : List (Option α)) :
    (countValues nonzero values).1 = values.length ↔ ∀ v ∈ values, v.isSome = true := by
  rw [countValues_eq, Nat.cast_inj, length_reduceOption_eq_countP, List.countP_eq_length]

theorem countValues_fst_le {α : Type*} (nonzero : α → Bool) (values : List (Option α)) :
    (countValues nonzero values).1 ≤ values.length := by
  rw [countValues_eq, length_reduceOption_eq_countP]
  exact Int.ofNat_le.mpr List.countP_le_length

theorem countValues_snd_eq_zero_iff {α : Type*} (nonzero : α → Bool)
    (values : List (Option α)) :
    (countValues nonzero values).2 = 0 ↔ ∀ v ∈ values.reduceOption, nonzero v = false := by
  rw [countValues_eq]
  simp [List.filter_eq_nil_iff]

theorem countValues_snd_eq_fst_iff {α : Type*} (nonzero : α → Bool)
    (values : List (Option α)) :
    (countValues nonzero values).2 = (countValues nonzero values).1 ↔
      ∀ v ∈ values.reduceOption, nonzero v = true := by
  rw [countValues_eq, Nat.cast_inj, List.length_filter_eq_length_iff]

end DeltaX.Stats.Colstats
