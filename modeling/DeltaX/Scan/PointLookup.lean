import DeltaX.Scan.MinMax
import DeltaX.Stats.Colstats
import DeltaX.Support.Numbering
/-!
# The skip-meta point lookup

A scan with a single equality qual on a NOT NULL column can take its segments
straight from the `(_col_idx, _min, _max)` index of `_colstats`, without opening
`_meta`.  The row count of such a segment is the stored `_nonnull_count`, which
the writer fills only for the types that have a sum.
-/

namespace DeltaX.Scan.PointLookup

open Column Stats.Encoding Stats.Colstats Support.KeySpan Support.Numbering Support.Wrapping MinMax

/-! ## The fast path -/

/-- The arguments of `load_segments_heap` that the fast path looks at. -/
structure ScanRequest where
  colNames : List Text
  colNotNull : List Bool
  blobIdx : List (Option ℕ)
  timeColumn : Text
  segmentBy : List Text
  segmentByFilters : List (Text × Text)
  timeMin : Option ℤ
  timeMax : Option ℤ
  loadMinmax : Bool
  neededStatsCols : List Text
  neededMinmaxCols : List Text
  skipBlobLoad : Bool
  batchQuals : List BatchQual

/-- Types with a place in the minmax index. -/
def isOrderable : TypeOid → Bool
  | .int2 | .int4 | .int8 | .float4 | .float8 | .date | .timestamp | .timestamptz => true
  | _ => false

/-- Phase 0a: the column index and the encoded constant of the one qual, when the
request has the shape the fast path takes. -/
def pointLookupFilter (r : ScanRequest) : Option (ℕ × ℤ) :=
  if r.segmentBy.isEmpty && r.segmentByFilters.isEmpty && r.timeMin.isNone && r.timeMax.isNone &&
      !r.loadMinmax && r.neededStatsCols.isEmpty && r.neededMinmaxCols.isEmpty &&
      r.skipBlobLoad then
    match r.batchQuals with
    | [bq] => do
        let colName ← r.colNames[bq.colIdx]?
        if bq.op = .eq ∧ isOrderable bq.typeOid = true ∧ colName ≠ r.timeColumn ∧
            colName ∉ r.segmentBy ∧ r.colNotNull[bq.colIdx]?.getD false = true then
          let ci ← (r.blobIdx[bq.colIdx]?).join
          let value ← encodeDatumToI64 bq.constDatum bq.typeOid
          some (ci, value)
        else none
    | _ => none
  else none

structure PointSegment where
  segmentId : ℤ
  rowCount : ℤ
deriving DecidableEq, Repr

/-- `lookup_point_segments_by_minmax_index`: index entries with `_min` at most the
value, rechecked against `_max`.  NULL bounds never match. -/
def lookupPointSegmentsByMinmaxIndex (colstats : List ColstatsRow) (colIdx : ℕ) (value : ℤ) :
    List PointSegment :=
  colstats.filterMap fun row =>
    match row.minVal, row.maxVal with
    | some lo, some hi =>
        if row.colIdx = colIdx ∧ lo ≤ value ∧ ¬ hi < value then
          some ⟨row.segmentId, row.nonnullCount⟩
        else none
    | _, _ => none

/-! ## A partition as the compressor wrote it -/

/-- One segment handed to `flush_segment_metadata`. -/
structure SegmentInput where
  segmentId : ℤ
  rowCount : ℕ
  data : List TypedColumn
  segmentValues : List (Option Text)
  ndistinct : List ℤ

/-- A written partition: every segment has the columns of the table in their own
representation, the counts fit the `INT` columns, and the segment ids are the
primary key of `_meta`. -/
structure WrittenPartition where
  columns : List ColumnMeta
  notNull : List Bool
  forceTextFallback : Bool
  segments : List SegmentInput
  data_length : ∀ seg ∈ segments, seg.data.length = columns.length
  hasKind : ∀ seg ∈ segments, ∀ c ∈ columns.zip seg.data, c.1.isSegmentBy = false →
    c.2.hasKind (classifyColumn forceTextFallback c.1.dataType c.1.isSegmentBy) = true
  present_length : ∀ seg ∈ segments, ∀ c ∈ columns.zip seg.data, c.1.isSegmentBy = false →
    c.2.present.length = seg.rowCount
  present_of_notNull : ∀ seg ∈ segments, ∀ (k : ℕ) (data : TypedColumn),
    notNull[k]? = some true → seg.data[k]? = some data → ∀ b ∈ data.present, b = true
  rowCount_lt : ∀ seg ∈ segments, seg.rowCount < 2 ^ 31
  segmentId_nodup : (segments.map SegmentInput.segmentId).Nodup

namespace WrittenPartition

variable (p : WrittenPartition)

def cols (seg : SegmentInput) : List (ColumnMeta × TypedColumn) := p.columns.zip seg.data

def flush (seg : SegmentInput) : MetaRow × List ColstatsRow :=
  flushSegmentMetadata (p.cols seg) seg.segmentValues seg.ndistinct seg.rowCount seg.segmentId

def metaRows : List MetaRow := p.segments.map fun seg => (p.flush seg).1

def colstats : List ColstatsRow := p.segments.flatMap fun seg => (p.flush seg).2

/-- A `count(*)`-style scan of the partition with the qual `column k = d`. -/
def pointRequest (timeColumn : Text) (k : ℕ) (col : ColumnMeta) (d : Datum) : ScanRequest where
  colNames := p.columns.map ColumnMeta.name
  colNotNull := p.notNull
  blobIdx := number (fun col : ColumnMeta => !col.isSegmentBy) 0 p.columns
  timeColumn := timeColumn
  segmentBy := (p.columns.filter ColumnMeta.isSegmentBy).map ColumnMeta.name
  segmentByFilters := []
  timeMin := none
  timeMax := none
  loadMinmax := false
  neededStatsCols := []
  neededMinmaxCols := []
  skipBlobLoad := true
  batchQuals := [⟨k, .eq, d, col.dataType.typeOid, none, none⟩]

/-- The stored `[_min, _max]` of column `k` covers the value. -/
def Covers (k : ℕ) (col : ColumnMeta) (seg : SegmentInput) (value : ℤ) : Prop :=
  ∃ data lo hi, seg.data[k]? = some data ∧
    computeMinmaxEncodedI64 data col.dataType = (some lo, some hi) ∧ lo ≤ value ∧ value ≤ hi

/-- The lookup agrees with the meta scan: each segment it returns has the id and
the row count of a `_meta` row, and no covering segment is missing. -/
structure LookupAgrees (k : ℕ) (col : ColumnMeta) (ci : ℕ) (value : ℤ) : Prop where
  sameRow : ∀ r ∈ lookupPointSegmentsByMinmaxIndex p.colstats ci value,
    ∃ m ∈ p.metaRows, m.segmentId = r.segmentId ∧ m.rowCount = r.rowCount
  complete : ∀ seg ∈ p.segments, Covers k col seg value →
    ∃ r ∈ lookupPointSegmentsByMinmaxIndex p.colstats ci value, r.segmentId = seg.segmentId

end WrittenPartition

/-- The column whose counts end up under a name: the last one that has a sum. -/
def countedColumn (cols : List (ColumnMeta × TypedColumn)) (name : Text) : Option TypedColumn :=
  (cols.filter fun c =>
    !c.1.isSegmentBy && c.1.dataType.supportsSum && decide (c.1.name = name)).getLast?.map Prod.snd

/-! ## The stored counts -/

theorem colSums_eq_countedColumn (cols : List (ColumnMeta × TypedColumn)) (name : Text) :
    colSums cols name = (countedColumn cols name).map computeTypedSum := by
  induction cols using List.reverseRecOn with
  | nil => rfl
  | append_singleton cols c ih =>
      unfold colSums countedColumn at *
      rw [List.foldl_append, List.foldl_cons, List.foldl_nil, List.filter_append]
      by_cases hsum : (!c.1.isSegmentBy && c.1.dataType.supportsSum) = true
      · by_cases hname : c.1.name = name
        · subst hname
          simp [hsum]
        · rw [if_pos hsum, Function.update_of_ne (Ne.symm hname)]
          simpa [hname] using ih
      · rw [if_neg hsum]
        simpa [hsum] using ih

/-- The count of a column with a sum is the number of its rows exactly when none
is NULL. -/
theorem computeTypedSum_eq_length_iff {dataType : DataType} {force : Bool}
    (hsum : dataType.supportsSum = true) {data : TypedColumn}
    (hkind : data.hasKind (classifyColumn force dataType false) = true) :
    (computeTypedSum data).1 = data.present.length ↔ ∀ b ∈ data.present, b = true := by
  cases dataType <;> cases data <;>
    simp_all [DataType.supportsSum, DataType.isText, classifyColumn, TypedColumn.hasKind,
      computeTypedSum, TypedColumn.present, countValues_eq_length_iff]

theorem computeTypedSum_nonneg (data : TypedColumn) : 0 ≤ (computeTypedSum data).1 := by
  cases data <;> simp [computeTypedSum, countValues_eq]

theorem computeTypedSum_le_length (data : TypedColumn) :
    (computeTypedSum data).1 ≤ data.present.length := by
  cases data <;> simp only [computeTypedSum, TypedColumn.present, List.length_map] <;>
    first | exact countValues_fst_le _ _ | omega

/-- Stored bounds come from a value. -/
theorem present_ne_nil_of_minmax {data : TypedColumn} {dataType : DataType} {lo hi : ℤ}
    (h : computeMinmaxEncodedI64 data dataType = (some lo, some hi)) : data.present ≠ [] := by
  have hvalues : ∀ {α : Type} (values : List (Option α)) (encode : α → ℤ),
      minmaxEncodedVia values encode = (some lo, some hi) → values.map Option.isSome ≠ [] := by
    intro α values encode heq hnil
    rw [List.map_eq_nil_iff.mp hnil] at heq
    cases heq
  unfold computeMinmaxEncodedI64 at h
  split at h
  · cases data <;> first | exact hvalues _ _ h | cases h
  · cases h

namespace WrittenPartition

variable {p : WrittenPartition}

theorem mem_metaRows_iff (m : MetaRow) :
    m ∈ p.metaRows ↔ ∃ seg ∈ p.segments, m = ⟨seg.segmentId, seg.segmentValues, seg.rowCount⟩ := by
  simp only [metaRows, List.mem_map, flush, flushSegmentMetadata, eq_comm]

theorem segment_unique {seg seg' : SegmentInput} (hseg : seg ∈ p.segments)
    (hseg' : seg' ∈ p.segments) (hid : seg'.segmentId = seg.segmentId) : seg' = seg :=
  List.inj_on_of_nodup_map p.segmentId_nodup hseg' hseg hid

/-- Without segment-by columns the lookup under column `k` returns the covering
segments with the counts stored for the column. -/
theorem mem_lookup_iff (hseg : ∀ col ∈ p.columns, col.isSegmentBy = false) {k : ℕ}
    {col : ColumnMeta} (hcol : p.columns[k]? = some col) (value : ℤ) (r : PointSegment) :
    r ∈ lookupPointSegmentsByMinmaxIndex p.colstats k value ↔
      ∃ seg ∈ p.segments, Covers k col seg value ∧
        r = ⟨seg.segmentId, wrapI32 (if col.dataType.supportsSum then
          (colSums (p.cols seg) col.name).getD (0, 0) else (0, 0)).1⟩ := by
  have hfilter : ∀ seg, ((p.cols seg).filter fun c => !c.1.isSegmentBy) = p.cols seg := by
    intro seg
    rw [List.filter_eq_self]
    rintro ⟨c, data⟩ hc
    simp [hseg c (List.of_mem_zip hc).1]
  have hget : ∀ (seg : SegmentInput) (j : ℕ) (col' : ColumnMeta) (data : TypedColumn),
      (p.cols seg)[j]? = some (col', data) ↔
        p.columns[j]? = some col' ∧ seg.data[j]? = some data := by
    intro seg j col' data
    simp [cols, List.getElem?_zip_eq_some]
  simp only [lookupPointSegmentsByMinmaxIndex, List.mem_filterMap, colstats, List.mem_flatMap,
    flush, flushSegmentMetadata, mem_colstatsRows_iff, hfilter, hget]
  constructor
  · rintro ⟨row, ⟨seg, hmem, j, col', data, ⟨hcol', hdata⟩, rfl⟩, hrow⟩
    simp only [colstatsRow, zero_add] at hrow
    split at hrow
    · rename_i lo hi hlo hhi
      split at hrow
      · rename_i hcond
        obtain ⟨rfl, hle, hge⟩ := hcond
        rw [hcol] at hcol'
        cases hcol'
        cases hrow
        refine ⟨seg, hmem, ⟨data, lo, hi, hdata, Prod.ext hlo hhi, hle, not_lt.mp hge⟩, rfl⟩
      · cases hrow
    · cases hrow
  · rintro ⟨seg, hmem, ⟨data, lo, hi, hdata, hbounds, hle, hge⟩, rfl⟩
    refine ⟨_, ⟨seg, hmem, k, col, data, ⟨hcol, hdata⟩, rfl⟩, ?_⟩
    simp [colstatsRow, hbounds, hle, hge]

/-- The fast path applies only without segment-by columns, and reads the
statistics under the column's own number. -/
theorem pointLookupFilter_pointRequest {timeColumn : Text} {k : ℕ} {col : ColumnMeta} {d : Datum}
    {ci : ℕ} {value : ℤ} (hcol : p.columns[k]? = some col)
    (h : pointLookupFilter (p.pointRequest timeColumn k col d) = some (ci, value)) :
    (∀ col ∈ p.columns, col.isSegmentBy = false) ∧ ci = k ∧ p.notNull[k]? = some true := by
  simp only [pointLookupFilter, pointRequest, List.isEmpty_nil, Option.isNone_none, Bool.and_true,
    Bool.not_false, List.isEmpty_map, Option.bind_eq_bind] at h
  split at h
  · rename_i hempty
    have hseg : ∀ col ∈ p.columns, col.isSegmentBy = false := by
      intro col hcol
      by_contra hsegBy
      have hmem : col ∈ p.columns.filter ColumnMeta.isSegmentBy :=
        List.mem_filter.mpr ⟨hcol, by simpa using hsegBy⟩
      rw [List.isEmpty_iff.mp hempty] at hmem
      cases hmem
    obtain ⟨name, _, h⟩ := Option.bind_eq_some_iff.mp h
    split at h
    · rename_i hcond
      obtain ⟨ci', hci, h⟩ := Option.bind_eq_some_iff.mp h
      obtain ⟨value', _, h⟩ := Option.bind_eq_some_iff.mp h
      cases h
      have hk : k ≤ p.columns.length := (List.getElem?_eq_some_iff.mp hcol).1.le
      refine ⟨hseg, ?_, ?_⟩
      · rw [getElem?_number, hcol] at hci
        simp only [Option.map_some, hseg col (List.mem_of_getElem? hcol), Bool.not_false,
          if_true, zero_add, Option.join_some, Option.some.injEq] at hci
        rw [← hci]
        exact before_of_forall (fun c hc => by simp [hseg c hc]) hk
      · cases hnn : p.notNull[k]? with
        | none => simp [hnn] at hcond
        | some b =>
            have hb : b = true := by simpa [hnn] using hcond.2.2.2.2
            rw [hb]
    · cases h
  · cases h

theorem rowCount_pos_of_covers {k : ℕ} {col : ColumnMeta} (hcol : p.columns[k]? = some col)
    (hsegBy : col.isSegmentBy = false) {seg : SegmentInput} (hseg : seg ∈ p.segments) {value : ℤ}
    (h : Covers k col seg value) : 0 < seg.rowCount := by
  obtain ⟨data, lo, hi, hdata, hbounds, _, _⟩ := h
  have hmem : (col, data) ∈ p.columns.zip seg.data :=
    List.mem_of_getElem? (List.getElem?_zip_eq_some.mpr ⟨hcol, hdata⟩)
  rw [← p.present_length seg hseg _ hmem hsegBy]
  exact List.length_pos_iff.mpr (present_ne_nil_of_minmax hbounds)

/-- The counts stored under a name are those of the rows of the segment exactly
when the counted column has no NULL. -/
theorem counted_eq_rowCount_iff {seg : SegmentInput} (hseg : seg ∈ p.segments) {name : Text}
    {data : TypedColumn} (hcounted : countedColumn (p.cols seg) name = some data) :
    wrapI32 (computeTypedSum data).1 = seg.rowCount ↔ ∀ b ∈ data.present, b = true := by
  unfold countedColumn at hcounted
  obtain ⟨⟨col, data'⟩, hlast, rfl⟩ := Option.map_eq_some_iff.mp hcounted
  obtain ⟨hmem, hsel⟩ := List.mem_filter.mp (List.mem_of_mem_getLast? hlast)
  simp only [Bool.and_eq_true, Bool.not_eq_true', decide_eq_true_eq] at hsel
  obtain ⟨⟨hsegBy, hsum⟩, _⟩ := hsel
  have hlength := p.present_length seg hseg _ hmem hsegBy
  have hkind := p.hasKind seg hseg _ hmem hsegBy
  rw [hsegBy] at hkind
  have hlt := p.rowCount_lt seg hseg
  have hle := computeTypedSum_le_length data'
  rw [hlength] at hle
  have hnonneg := computeTypedSum_nonneg data'
  have hwrap : wrapI32 (computeTypedSum data').1 = (computeTypedSum data').1 :=
    wrapI32_of_lt (by omega) (by omega)
  rw [hwrap, ← hlength]
  exact computeTypedSum_eq_length_iff hsum hkind

theorem countedColumn_isSome {seg : SegmentInput} {k : ℕ} {col : ColumnMeta} {data : TypedColumn}
    (hcol : p.columns[k]? = some col) (hdata : seg.data[k]? = some data)
    (hsegBy : col.isSegmentBy = false) (hsum : col.dataType.supportsSum = true) :
    ∃ data', countedColumn (p.cols seg) col.name = some data' := by
  have hmem : (col, data) ∈ (p.cols seg).filter fun c =>
      !c.1.isSegmentBy && c.1.dataType.supportsSum && decide (c.1.name = col.name) := by
    refine List.mem_filter.mpr ⟨?_, by simp [hsegBy, hsum]⟩
    exact List.mem_of_getElem? (List.getElem?_zip_eq_some.mpr ⟨hcol, hdata⟩)
  rw [← Option.isSome_iff_exists, countedColumn, Option.isSome_map, List.getLast?_isSome]
  exact List.ne_nil_of_mem hmem

theorem countedColumn_of_nodup (hnames : (p.columns.map ColumnMeta.name).Nodup)
    {seg : SegmentInput} {k : ℕ} {col : ColumnMeta} {data data' : TypedColumn}
    (hcol : p.columns[k]? = some col) (hdata : seg.data[k]? = some data)
    (hcounted : countedColumn (p.cols seg) col.name = some data') : data' = data := by
  unfold countedColumn at hcounted
  obtain ⟨⟨col', data''⟩, hlast, rfl⟩ := Option.map_eq_some_iff.mp hcounted
  obtain ⟨hmem, hsel⟩ := List.mem_filter.mp (List.mem_of_mem_getLast? hlast)
  simp only [Bool.and_eq_true, decide_eq_true_eq] at hsel
  obtain ⟨j, hj⟩ := List.mem_iff_getElem?.mp hmem
  obtain ⟨hcol', hdata'⟩ := List.getElem?_zip_eq_some.mp hj
  have hjk : j = k := by
    have hjlt : j < (p.columns.map ColumnMeta.name).length := by
      rw [List.length_map]
      exact (List.getElem?_eq_some_iff.mp hcol').1
    refine (List.getElem?_inj hjlt hnames).mp ?_
    rw [List.getElem?_map, List.getElem?_map, hcol', hcol]
    exact congrArg some hsel.2
  subst hjk
  exact Option.some.inj (hdata'.symm.trans hdata)

theorem lookupAgrees_of_counted {k : ℕ} {col : ColumnMeta} {value : ℤ}
    (hcol : p.columns[k]? = some col) (hsegBy : ∀ col ∈ p.columns, col.isSegmentBy = false)
    (hcond : ∀ seg ∈ p.segments, Covers k col seg value → col.dataType.supportsSum = true ∧
      ∀ data, countedColumn (p.cols seg) col.name = some data → ∀ b ∈ data.present, b = true) :
    p.LookupAgrees k col k value := by
  have hcolSeg : col.isSegmentBy = false := hsegBy col (List.mem_of_getElem? hcol)
  have hlookup := mem_lookup_iff hsegBy hcol value
  refine ⟨?_, ?_⟩
  · intro r hr
    obtain ⟨seg, hseg, hcovers, rfl⟩ := (hlookup r).mp hr
    obtain ⟨hsum, hfull⟩ := hcond seg hseg hcovers
    refine ⟨_, (mem_metaRows_iff _).mpr ⟨seg, hseg, rfl⟩, rfl, ?_⟩
    obtain ⟨data, _, _, hdata, _⟩ := hcovers
    obtain ⟨data', hcounted⟩ := countedColumn_isSome hcol hdata hcolSeg hsum
    simp only [hsum, if_true, colSums_eq_countedColumn, hcounted, Option.map_some,
      Option.getD_some]
    exact ((counted_eq_rowCount_iff hseg hcounted).mpr (hfull data' hcounted)).symm
  · intro seg hseg hcovers
    exact ⟨_, (hlookup _).mpr ⟨seg, hseg, hcovers, rfl⟩, rfl⟩

end WrittenPartition

/-- The point lookup agrees with the meta scan exactly when the column has a sum
in every covering segment and nothing NULL is counted under its name. -/
theorem pointLookup_agrees_iff (p : WrittenPartition) (timeColumn : Text) (k : ℕ)
    (col : ColumnMeta) (d : Datum) (ci : ℕ) (value : ℤ) (hcol : p.columns[k]? = some col)
    (h : pointLookupFilter (p.pointRequest timeColumn k col d) = some (ci, value)) :
    p.LookupAgrees k col ci value ↔
      ∀ seg ∈ p.segments, WrittenPartition.Covers k col seg value →
        col.dataType.supportsSum = true ∧
          ∀ data, countedColumn (p.cols seg) col.name = some data →
            ∀ b ∈ data.present, b = true := by
  obtain ⟨hsegBy, rfl, _⟩ := p.pointLookupFilter_pointRequest hcol h
  have hcolSeg : col.isSegmentBy = false := hsegBy col (List.mem_of_getElem? hcol)
  have hlookup := WrittenPartition.mem_lookup_iff hsegBy hcol value
  constructor
  · intro hagrees seg hseg hcovers
    obtain ⟨m, hm, hid, hcount⟩ := hagrees.sameRow _ ((hlookup _).mpr ⟨seg, hseg, hcovers, rfl⟩)
    obtain ⟨seg', hseg', rfl⟩ := (WrittenPartition.mem_metaRows_iff m).mp hm
    obtain rfl := WrittenPartition.segment_unique hseg hseg' hid
    have hpos := WrittenPartition.rowCount_pos_of_covers hcol hcolSeg hseg hcovers
    by_cases hsum : col.dataType.supportsSum = true
    · refine ⟨hsum, ?_⟩
      intro data hcounted
      simp only [hsum, if_true, colSums_eq_countedColumn, hcounted, Option.map_some,
        Option.getD_some] at hcount
      exact (WrittenPartition.counted_eq_rowCount_iff hseg hcounted).mp hcount.symm
    · -- a type without a sum has the count 0, and the segment has a row
      simp only [hsum, if_false, Bool.false_eq_true] at hcount
      exact absurd hcount (by simp [wrapI32]; omega)
  · exact WrittenPartition.lookupAgrees_of_counted hcol hsegBy

/-- One row `(t, d, n) = (2000-01-01, 2000-01-01, 7)` under `t timestamptz`, the time
column, `d date` and `n integer`, all NOT NULL. -/
def samplePartition : WrittenPartition where
  columns := [⟨['t'], .timestamptz, false, true⟩, ⟨['d'], .date, false, false⟩,
    ⟨['n'], .integer, false, false⟩]
  notNull := [true, true, true]
  forceTextFallback := false
  segments := [⟨1, 1, [.int64 [some (encodeTimestamp 0)], .int64 [some (encodeDate 0)],
    .int32 [some 7]], [], [1, 1, 1]⟩]
  data_length := by simp
  hasKind := by
    simp only [List.mem_singleton, forall_eq]
    decide
  present_length := by
    simp only [List.mem_singleton, forall_eq]
    decide
  present_of_notNull := by
    simp only [List.mem_singleton, forall_eq]
    intro k data _ hdata
    have hmem := List.mem_of_getElem? hdata
    simp only [List.mem_cons, List.not_mem_nil, or_false] at hmem
    rcases hmem with rfl | rfl | rfl <;> simp [TypedColumn.present]
  rowCount_lt := by simp
  segmentId_nodup := by simp

theorem pointLookup_agrees_iff_integer :
    samplePartition.LookupAgrees 2 ⟨['n'], .integer, false, false⟩ 2 7 := by
  refine (pointLookup_agrees_iff samplePartition ['t'] 2 ⟨['n'], .integer, false, false⟩ 7 2 7
    rfl (by decide)).mpr ?_
  intro seg hseg _
  obtain rfl := List.mem_singleton.mp hseg
  refine ⟨rfl, ?_⟩
  intro data hdata
  cases hdata
  decide

/-- On the `date` column the lookup finds the segment with no rows. -/
theorem date_pointLookup_disagrees :
    pointLookupFilter (samplePartition.pointRequest ['t'] 1 ⟨['d'], .date, false, false⟩ 0) =
        some (1, 946684800000000) ∧
      ¬ samplePartition.LookupAgrees 1 ⟨['d'], .date, false, false⟩ 1 946684800000000 := by
  refine ⟨by decide, ?_⟩
  intro hagrees
  have hsame := hagrees.sameRow
  revert hsame
  decide

/-- A NOT NULL column with a sum and a name of its own is looked up faithfully. -/
theorem lookupAgrees_of_supportsSum {p : WrittenPartition} {timeColumn : Text} {k : ℕ}
    {col : ColumnMeta} {d : Datum} {ci : ℕ} {value : ℤ} (hcol : p.columns[k]? = some col)
    (h : pointLookupFilter (p.pointRequest timeColumn k col d) = some (ci, value))
    (hnames : (p.columns.map ColumnMeta.name).Nodup) (hsum : col.dataType.supportsSum = true) :
    p.LookupAgrees k col ci value := by
  obtain ⟨hsegBy, rfl, hnotNull⟩ := p.pointLookupFilter_pointRequest hcol h
  refine WrittenPartition.lookupAgrees_of_counted hcol hsegBy fun seg hseg hcovers => ⟨hsum, ?_⟩
  intro data' hcounted
  obtain ⟨data, _, _, hdata, _⟩ := hcovers
  obtain rfl := WrittenPartition.countedColumn_of_nodup hnames hcol hdata hcounted
  exact p.present_of_notNull seg hseg _ _ hnotNull hdata

end DeltaX.Scan.PointLookup
