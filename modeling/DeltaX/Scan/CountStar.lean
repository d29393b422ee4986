import DeltaX.Scan.SegmentPruning
import DeltaX.Support.ListLookup
import Mathlib.Algebra.BigOperators.Ring.Finset
/-!
# COUNT(*) from metadata

Without a WHERE clause `COUNT(*)` is the sum of the catalog's row counts.  With one that the
planner's gate accepts, segments inside the time window are counted by their metadata, segments
across one of its ends row by row, and the loose rows of the partition heaps one by one.
-/

namespace DeltaX.Scan.CountStar

open Column Schema MinMax Support.KeySpan Support.Numbering Support.ListLookup

/-! ## The planner's gate -/

/-- A half-open interval of microseconds. -/
structure TimeBounds where
  lo : Option ℤ
  hi : Option ℤ
deriving DecidableEq, Repr

def TimeBounds.narrowLo (self : TimeBounds) (v : ℤ) : TimeBounds :=
  { self with lo := some (self.lo.elim v fun l => max l v) }

def TimeBounds.narrowHi (self : TimeBounds) (v : ℤ) : TimeBounds :=
  { self with hi := some (self.hi.elim v fun h => min h v) }

def constUsec (c : ConstNode) : Option ℤ :=
  match c.typeOid, c.value with
  | .date, some v => some ((v.word.setWidth 32).toInt * 86400000000)
  | .timestamp, some v | .timestamptz, some v => some v.word.toInt
  | _, _ => none

/-- A range bound on the time column; `=` is rejected. -/
def narrow (bounds : TimeBounds) (op : OpName) (v : ℤ) : Option TimeBounds :=
  match op with
  | .ge => some (bounds.narrowLo v)
  | .gt => some (bounds.narrowLo (saturatingSucc v))
  | .lt => some (bounds.narrowHi v)
  | .le => some (bounds.narrowHi (saturatingSucc v))
  | _ => none

/-- The operands are looked at through a relabelling. -/
def classifyComparison (t : Table) (s : Settings) (op : OpName) (raw0 raw1 : Operand)
    (bounds : TimeBounds) : Option TimeBounds := do
  let found ← varAndConst raw0.unwrapRelabel raw1.unwrapRelabel
  let a ← t.attrs.find? fun a => decide ((a.attnum : ℤ) = found.1)
  if s.isSegmentBy a then if op = .eq then some bounds else none
  else if a.name = s.timeColumn then do
    let v ← constUsec found.2.1
    narrow bounds (if found.2.2 then op else flipOpName op) v
  else none

mutual

def classifyMetaQualNode (t : Table) (s : Settings) : QualNode → TimeBounds → Option TimeBounds
  | .boolExpr .and (node :: nodes), bounds =>
      (classifyMetaQualNode t s node bounds).bind (classifyMetaQualNodes t s nodes)
  | .opExpr op [raw0, raw1], bounds => classifyComparison t s op raw0 raw1 bounds
  | _, _ => none

def classifyMetaQualNodes (t : Table) (s : Settings) :
    List QualNode → TimeBounds → Option TimeBounds
  | [], bounds => some bounds
  | node :: nodes, bounds =>
      (classifyMetaQualNode t s node bounds).bind (classifyMetaQualNodes t s nodes)

end

def classifyMetaQuals (t : Table) (s : Settings) (quals : List QualNode) : Option TimeBounds :=
  classifyMetaQualNodes t s quals ⟨none, none⟩

/-! ## Counting a segment -/

/-- What is loaded of a segment.  Its time column is decoded on demand. -/
structure SegmentData extends SegmentMeta where
  rowCount : ℤ
  tombstones : Option (List ℕ)
  /-- The times in the blob with a number; `none` where there is no blob. -/
  timesAt : ℕ → Option (List (Option ℤ))

def SegmentData.liveRowCount (self : SegmentData) : ℤ :=
  match self.tombstones with
  | some t => self.rowCount - t.length
  | none => self.rowCount

def SegmentData.tombstonePreselection (self : SegmentData) (n : ℕ) : Option (List Bool) :=
  self.tombstones.map fun tombs =>
    tombs.foldl (fun sel off => if off < n then sel.set off false else sel) (List.replicate n true)

def segFullyInBounds (seg : SegmentMeta) (lo hi : Option ℤ) : Bool :=
  lo.all (fun lo => seg.minTime.any fun m => decide (lo ≤ m)) &&
    hi.all fun hi => seg.maxTime.any fun m => decide (m < hi)

def inWindow (lo hi : Option ℤ) (v : Option ℤ) : Bool :=
  v.any fun v => lo.all (fun lo => decide (lo ≤ v)) && hi.all fun hi => decide (v < hi)

def timeSelectionMask (timeVals : List (Option ℤ)) (lo hi : Option ℤ) : List Bool :=
  timeVals.map (inWindow lo hi)

/-- `timeIdx` is the number of the time column's blob. -/
def partialSegmentTimeMask (seg : SegmentData) (timeIdx : Option ℕ) (lo hi : Option ℤ) :
    Option (List Bool) :=
  (timeIdx.bind seg.timesAt).map fun vals => timeSelectionMask vals lo hi

def countSegment (seg : SegmentData) (timeIdx : Option ℕ) (lo hi : Option ℤ) : Option ℤ :=
  if segFullyInBounds seg.toSegmentMeta lo hi then some seg.liveRowCount
  else (partialSegmentTimeMask seg timeIdx lo hi).map fun mask =>
    match seg.tombstonePreselection mask.length with
    | some live => ((mask.zip live).countP fun p => p.1 && p.2 : ℕ)
    | none => (mask.countP id : ℕ)

/-! ## Partitions -/

section partitions

variable {t : Table} (s : Settings) (out : TypeOid → ElemValue → Text)
  (constOut : ConstNode → Text) (o : Outside t)

/-- How a partition stores its rows: the number of the time column's blob, if it has one, and
the number of the heap's attributes. -/
structure Layout where
  timeIdx : Option ℕ
  natts : ℕ
deriving DecidableEq, Repr

variable (t) in
/-- A segment with its rows: the metadata are true of them. -/
structure CountedSegment (timeIdx : Option ℕ) extends SegmentData where
  rows : List (Row t)
  rows_ne_nil : rows ≠ []
  rowCount_eq : rowCount = rows.length
  segmentValues_eq : ∀ row ∈ rows, segmentValuesOf s out row = segmentValues
  timed : ∀ row ∈ rows, Timed s row
  minTime_le : ∀ m, minTime = some m → ∀ row ∈ rows, ∀ w, timeWord s row = some w → m ≤ w
  le_maxTime : ∀ m, maxTime = some m → ∀ row ∈ rows, ∀ w, timeWord s row = some w → w ≤ m
  tombstones_nodup : ∀ tombs, tombstones = some tombs → tombs.Nodup
  tombstones_lt : ∀ tombs, tombstones = some tombs → ∀ off ∈ tombs, off < rows.length
  timesAt_eq : ∀ k, timeIdx = some k → timesAt k = some (rows.map (timeWord s))

variable {s out} in
def CountedSegment.live {timeIdx : Option ℕ} (seg : CountedSegment t s out timeIdx) :
    List (Row t) :=
  (seg.rows.zipIdx.filter fun p => decide (p.2 ∉ seg.tombstones.getD [])).map Prod.fst

variable (t) in
/-- A compressed partition; the catalog's row count is the number of its live rows, and its
flag is set where the heap has rows. -/
structure CountedPartition where
  layout : Layout
  rowCount : ℤ
  hasLooseRows : Bool
  segments : List (CountedSegment t s out layout.timeIdx)
  looseRows : List (Row t)
  rowCount_eq : rowCount = ((segments.map fun seg => seg.live.length).sum : ℕ)
  looseRows_eq : hasLooseRows = false → looseRows = []

/-- `ExecQual` on a list of clauses. -/
def passes (quals : List QualNode) (row : Row t) : Bool :=
  quals.all fun node => decide (node.eval o row = some true)

variable {s out}

def getRowCount (p : CountedPartition t s out) : Option ℤ :=
  if 0 < p.rowCount then some p.rowCount else none

/-- The catalog's total, with every partition found there. -/
def catalogTotal (parts : List (CountedPartition t s out)) : Option ℤ :=
  (parts.mapM getRowCount).map List.sum

def countPartition (timeIdx : Option ℕ) (filters : SegmentFilters)
    (p : CountedPartition t s out) : Option ℤ :=
  ((p.segments.filter fun seg => !loadSegmentsHeapSkips seg.toSegmentMeta filters).mapM fun seg =>
    countSegment seg.toSegmentData timeIdx filters.2.1 filters.2.2).map List.sum

/-- The rows of one heap in `for_each_heap_tail_row`, with its layout checked unless
`expectedNatts` is `0`. -/
def countHeap (quals : List QualNode) (expectedNatts : ℕ) (p : CountedPartition t s out) :
    Option ℕ :=
  if !p.hasLooseRows then some 0
  else if expectedNatts ≠ 0 ∧ p.layout.natts ≠ expectedNatts then none
  else some (p.looseRows.countP (passes o quals))

def beginCountScan (quals : List QualNode) (parts : List (CountedPartition t s out)) :
    Option ℤ := do
  let first ← parts.head?
  let filters := extractSegmentFilters constOut (loadParentColumns t.attrs) s quals
  let total ← (if quals.isEmpty then catalogTotal parts else none).or
    ((parts.mapM (countPartition first.layout.timeIdx filters)).map List.sum)
  let loose ← parts.mapM
    (countHeap o quals (if quals.isEmpty then 0 else (liveAttrs t.attrs).length))
  return total + (loose.sum : ℕ)

/-- The rows of a partition that a scan with the clauses returns. -/
def scanPartition (quals : List QualNode) (p : CountedPartition t s out) : ℕ :=
  (p.segments.map fun seg => seg.live.countP (passes o quals)).sum +
    p.looseRows.countP (passes o quals)

def scanCount (quals : List QualNode) (parts : List (CountedPartition t s out)) : ℕ :=
  (parts.map (scanPartition o quals)).sum

end partitions

/-! ## Live rows -/

theorem length_foldl_set (tombs : List ℕ) (n : ℕ) (sel : List Bool) :
    (tombs.foldl (fun sel off => if off < n then sel.set off false else sel) sel).length =
      sel.length := by
  induction tombs generalizing sel with
  | nil => rfl
  | cons off tombs ih =>
      rw [List.foldl_cons, ih]
      split_ifs
      · exact List.length_set
      · rfl

theorem getElem?_foldl_set (tombs : List ℕ) {n i : ℕ} (hi : i < n) {sel : List Bool}
    (hlen : sel.length = n) :
    (tombs.foldl (fun sel off => if off < n then sel.set off false else sel) sel)[i]? =
      if i ∈ tombs then some false else sel[i]? := by
  induction tombs generalizing sel with
  | nil => rfl
  | cons off tombs ih =>
      have hset : (if off < n then sel.set off false else sel).length = n := by
        split_ifs
        · rw [List.length_set, hlen]
        · exact hlen
      rw [List.foldl_cons, ih hset]
      by_cases hrest : i ∈ tombs
      · rw [if_pos hrest, if_pos (List.mem_cons_of_mem off hrest)]
      · rw [if_neg hrest]
        by_cases hoff : off = i
        · rw [hoff, if_pos hi, List.getElem?_set_self (by omega), if_pos List.mem_cons_self]
        · have hnot : i ∉ off :: tombs := by
            rw [List.mem_cons, not_or]
            exact ⟨Ne.symm hoff, hrest⟩
          rw [if_neg hnot]
          split_ifs
          · exact List.getElem?_set_ne hoff
          · rfl

/-- The vector is true at the offsets that are not deleted. -/
theorem tombstonePreselection_eq {seg : SegmentData} {tombs : List ℕ}
    (h : seg.tombstones = some tombs) (n : ℕ) :
    seg.tombstonePreselection n =
      some ((List.range n).map fun i => decide (i ∉ tombs)) := by
  rw [SegmentData.tombstonePreselection, h, Option.map_some]
  congr 1
  apply List.ext_getElem?
  intro i
  by_cases hi : i < n
  · rw [getElem?_foldl_set tombs hi List.length_replicate, List.getElem?_map,
      List.getElem?_range hi, List.getElem?_replicate, if_pos hi]
    by_cases hmem : i ∈ tombs <;> simp [hmem]
  · rw [List.getElem?_eq_none, List.getElem?_eq_none]
    · rw [List.length_map, List.length_range]
      omega
    · rw [length_foldl_set, List.length_replicate]
      omega

theorem zipIdx_eq_zip_range {α : Type*} (xs : List α) :
    xs.zipIdx = xs.zip (List.range xs.length) := by
  rw [List.zipIdx_eq_zip_range', List.range_eq_range']

/-- Counting under both masks is counting among the rows that are left. -/
theorem countP_zip_range {α : Type*} (xs : List α) (f : α → Bool) (g : ℕ → Bool) :
    ((xs.map f).zip ((List.range xs.length).map g)).countP (fun p => p.1 && p.2) =
      ((xs.zipIdx.filter fun p => g p.2).map Prod.fst).countP f := by
  rw [List.zip_map, List.countP_map, List.countP_map, List.countP_filter, zipIdx_eq_zip_range]
  rfl

theorem countP_range_not_mem {tombs : List ℕ} {n : ℕ} (hnodup : tombs.Nodup)
    (hlt : ∀ off ∈ tombs, off < n) :
    (List.range n).countP (fun i => decide (i ∉ tombs)) + tombs.length = n := by
  have hperm : ((List.range n).filter fun i => decide (i ∈ tombs)).Perm tombs := by
    rw [List.perm_ext_iff_of_nodup (List.nodup_range.filter _) hnodup]
    intro i
    rw [List.mem_filter, List.mem_range, decide_eq_true_iff]
    exact and_iff_right_of_imp (hlt i)
  have hsplit := List.length_eq_countP_add_countP (fun i => decide (i ∉ tombs)) (l := List.range n)
  have hdeleted : (List.range n).countP (fun i => decide ¬decide (i ∉ tombs) = true) =
      tombs.length := by
    rw [← hperm.length_eq, ← List.countP_eq_length_filter]
    apply List.countP_congr
    intro i _
    simp
  rw [List.length_range, hdeleted] at hsplit
  exact hsplit.symm

section segments

variable {t : Table} {s : Settings} {out : TypeOid → ElemValue → Text} {timeIdx : Option ℕ}
  (seg : CountedSegment t s out timeIdx)

theorem mem_rows_of_mem_live {row : Row t} (h : row ∈ seg.live) : row ∈ seg.rows := by
  obtain ⟨p, hp, rfl⟩ := List.mem_map.mp h
  have hmem := (List.mem_filter.mp hp).1
  rw [zipIdx_eq_zip_range] at hmem
  exact (List.of_mem_zip hmem).1

theorem live_of_none (h : seg.tombstones = none) : seg.live = seg.rows := by
  have hall : (seg.rows.zipIdx.filter fun p => decide (p.2 ∉ seg.tombstones.getD [])) =
      seg.rows.zipIdx := by
    rw [List.filter_eq_self]
    intro p _
    rw [h]
    rfl
  rw [CountedSegment.live, hall, zipIdx_eq_zip_range, List.map_fst_zip]
  exact List.length_range.ge

/-- The live rows are the physical ones without the deleted ones. -/
theorem liveRowCount_eq : seg.liveRowCount = seg.live.length := by
  cases htombs : seg.tombstones with
  | none => rw [SegmentData.liveRowCount, htombs, live_of_none seg htombs, seg.rowCount_eq]
  | some tombs =>
      have hcount := countP_range_not_mem (seg.tombstones_nodup tombs htombs)
        (seg.tombstones_lt tombs htombs)
      have hlive : seg.live.length =
          (List.range seg.rows.length).countP fun i => decide (i ∉ tombs) := by
        rw [CountedSegment.live, List.length_map, ← List.countP_eq_length_filter,
          zipIdx_eq_zip_range, htombs, Option.getD_some]
        calc (seg.rows.zip (List.range seg.rows.length)).countP (fun p => decide (p.2 ∉ tombs))
            = ((seg.rows.zip (List.range seg.rows.length)).map Prod.snd).countP
                fun i => decide (i ∉ tombs) := by rw [List.countP_map]; rfl
          _ = _ := by rw [List.map_snd_zip List.length_range.le]
      rw [SegmentData.liveRowCount, htombs, hlive, seg.rowCount_eq]
      dsimp only
      omega

theorem count_masked (f : Row t → Bool) :
    (match seg.tombstonePreselection (seg.rows.map f).length with
      | some live => ((((seg.rows.map f).zip live).countP fun p => p.1 && p.2 : ℕ) : ℤ)
      | none => ((seg.rows.map f).countP id : ℕ)) = ((seg.live.countP f : ℕ) : ℤ) := by
  rw [List.length_map]
  cases htombs : seg.tombstones with
  | none =>
      rw [SegmentData.tombstonePreselection, htombs, live_of_none seg htombs]
      exact congrArg Nat.cast List.countP_map
  | some tombs =>
      rw [tombstonePreselection_eq htombs, CountedSegment.live, htombs]
      exact congrArg Nat.cast (countP_zip_range seg.rows f fun i => decide (i ∉ tombs))

end segments

/-! ## What the filters say of a row -/

section filters

variable {t : Table} (s : Settings) (out : TypeOid → ElemValue → Text)
  (constOut : ConstNode → Text)

def admitsValues (filters : SegmentFilters) (row : Row t) : Bool :=
  filters.1.all fun f => decide (((segmentValuesOf s out row)[f.1]?).join = some f.2)

/-- The row passes the extracted filters. -/
def admits (filters : SegmentFilters) (row : Row t) : Bool :=
  admitsValues s out filters row && inWindow filters.2.1 filters.2.2 (timeWord s row)

variable (t) in
abbrev filtersOf (quals : List QualNode) : SegmentFilters :=
  extractSegmentFilters constOut (loadParentColumns t.attrs) s quals

theorem inWindow_iff {lo hi : Option ℤ} {w : ℤ} :
    inWindow lo hi (some w) = true ↔ (∀ l, lo = some l → l ≤ w) ∧ ∀ h, hi = some h → w < h := by
  cases lo <;> cases hi <;> simp [inWindow]

theorem admitsValues_iff {filters : SegmentFilters} {row : Row t} :
    admitsValues s out filters row = true ↔
      ∀ f ∈ filters.1, ((segmentValuesOf s out row)[f.1]?).join = some f.2 := by
  rw [admitsValues, List.all_eq_true]
  simp only [decide_eq_true_eq]

/-- A row alone passes the filters as a segment of its own. -/
theorem admits_iff_admitsAll {filters : SegmentFilters} {row : Row t} {w : ℤ}
    (hw : timeWord s row = some w) :
    admits s out filters row = true ↔ AdmitsAll (rowMeta s out row w) filters := by
  rw [admits, Bool.and_eq_true, admitsValues_iff, hw, inWindow_iff]
  constructor
  · intro ⟨hvalues, hlo, hhi⟩
    refine ⟨hvalues, fun lo h => ?_, fun hi h => ?_⟩
    · exact (reaches_rowMeta s out row w lo).mpr (hlo lo h)
    · exact (begins_rowMeta s out row w hi).mpr (hhi hi h)
  · intro h
    refine ⟨h.segmentBy, fun lo hlo => ?_, fun hi hhi => ?_⟩
    · exact (reaches_rowMeta s out row w lo).mp (h.timeMin lo hlo)
    · exact (begins_rowMeta s out row w hi).mp (h.timeMax hi hhi)

/-- The filters of a WHERE clause say of a row what `HoldsRaw` says. -/
theorem admits_iff_holdsRaw {row : Row t} (htimed : Timed s row) (quals : List QualNode) :
    admits s out (filtersOf t s constOut quals) row = true ↔
      ∀ node ∈ quals, HoldsRaw s out constOut row node := by
  obtain ⟨w, hw, hlt⟩ := htimed
  have hnone : AdmitsAll (rowMeta s out row w) ([], none, none) := ⟨by simp, by simp, by simp⟩
  rw [admits_iff_admitsAll s out hw, filtersOf, extractSegmentFilters, admitsAll_foldl]
  simp only [hnone, true_and, List.forall_mem_flatMap]
  apply forall₂_congr
  intro node _
  exact nodeFilters_admit_iff s out constOut hw hlt node

theorem segFullyInBounds_iff {seg : SegmentMeta} {lo hi : Option ℤ} :
    segFullyInBounds seg lo hi = true ↔
      (∀ l, lo = some l → ∃ m, seg.minTime = some m ∧ l ≤ m) ∧
        ∀ h, hi = some h → ∃ m, seg.maxTime = some m ∧ m < h := by
  obtain ⟨values, minTime, maxTime⟩ := seg
  cases lo <;> cases hi <;> cases minTime <;> cases maxTime <;> simp [segFullyInBounds]

end filters

section counting

variable {t : Table} {s : Settings} {out : TypeOid → ElemValue → Text} {timeIdx : Option ℕ}
  {seg : CountedSegment t s out timeIdx} {filters : SegmentFilters}

theorem admitsValues_row {row : Row t} (hrow : row ∈ seg.rows) :
    admitsValues s out filters row = true ↔
      ∀ f ∈ filters.1, (seg.segmentValues[f.1]?).join = some f.2 := by
  rw [admitsValues_iff, seg.segmentValues_eq row hrow]

/-- A pruned segment has no row that passes. -/
theorem not_admits_of_skipped (hskip : loadSegmentsHeapSkips seg.toSegmentMeta filters = true)
    {row : Row t} (hrow : row ∈ seg.rows) : admits s out filters row = false := by
  by_contra hadmits
  rw [Bool.not_eq_false] at hadmits
  obtain ⟨w, hw, -⟩ := seg.timed row hrow
  have hall := (admits_iff_admitsAll s out hw).mp hadmits
  have hkept : AdmitsAll seg.toSegmentMeta filters := by
    refine ⟨?_, fun lo hlo segMin segMax hmin hmax => ?_, fun hi hhi segMin segMax hmin hmax => ?_⟩
    · exact (admitsValues_row hrow).mp (Bool.and_eq_true_iff.mp hadmits).1
    · have hreach := (reaches_rowMeta s out row w lo).mp (hall.timeMin lo hlo)
      exact hreach.trans (seg.le_maxTime segMax hmax row hrow w hw)
    · have hbegin := (begins_rowMeta s out row w hi).mp (hall.timeMax hi hhi)
      exact (seg.minTime_le segMin hmin row hrow w hw).trans_lt hbegin
  rw [(loads_iff seg.toSegmentMeta filters).mpr hkept] at hskip
  cases hskip

theorem admits_of_kept (hkept : loadSegmentsHeapSkips seg.toSegmentMeta filters = false)
    {row : Row t} (hrow : row ∈ seg.rows) :
    admits s out filters row = inWindow filters.2.1 filters.2.2 (timeWord s row) := by
  have hall := (loads_iff seg.toSegmentMeta filters).mp hkept
  rw [admits, (admitsValues_row hrow).mpr hall.segmentBy, Bool.true_and]

theorem inWindow_of_full
    (hfull : segFullyInBounds seg.toSegmentMeta filters.2.1 filters.2.2 = true)
    {row : Row t} (hrow : row ∈ seg.rows) :
    inWindow filters.2.1 filters.2.2 (timeWord s row) = true := by
  obtain ⟨hlo, hhi⟩ := segFullyInBounds_iff.mp hfull
  obtain ⟨w, hw, -⟩ := seg.timed row hrow
  rw [hw, inWindow_iff]
  constructor
  · intro l hl
    obtain ⟨m, hm, hle⟩ := hlo l hl
    exact hle.trans (seg.minTime_le m hm row hrow w hw)
  · intro h hh
    obtain ⟨m, hm, hlt⟩ := hhi h hh
    exact (seg.le_maxTime m hm row hrow w hw).trans_lt hlt

theorem countSegment_eq (hkept : loadSegmentsHeapSkips seg.toSegmentMeta filters = false)
    {readIdx : Option ℕ}
    (hread : segFullyInBounds seg.toSegmentMeta filters.2.1 filters.2.2 = false →
      ∃ k, readIdx = some k ∧ timeIdx = some k) :
    countSegment seg.toSegmentData readIdx filters.2.1 filters.2.2 =
      some ((seg.live.countP (admits s out filters) : ℕ) : ℤ) := by
  have hadmits : seg.live.countP (admits s out filters) =
      seg.live.countP fun row => inWindow filters.2.1 filters.2.2 (timeWord s row) := by
    apply List.countP_congr
    intro row hrow
    rw [admits_of_kept hkept (mem_rows_of_mem_live seg hrow)]
  rw [hadmits, countSegment]
  cases hfull : segFullyInBounds seg.toSegmentMeta filters.2.1 filters.2.2 with
  | true =>
      have hall : ∀ row ∈ seg.live, inWindow filters.2.1 filters.2.2 (timeWord s row) = true :=
        fun row hrow => inWindow_of_full hfull (mem_rows_of_mem_live seg hrow)
      rw [if_pos rfl, liveRowCount_eq, List.countP_eq_length.mpr hall]
  | false =>
      obtain ⟨k, rfl, hown⟩ := hread hfull
      rw [if_neg Bool.false_ne_true, partialSegmentTimeMask, Option.bind_some,
        seg.timesAt_eq k hown, Option.map_some, Option.map_some, timeSelectionMask, List.map_map]
      exact congrArg some (count_masked seg _)

end counting

/-! ## The total -/

section total

variable {t : Table} {s : Settings} {out : TypeOid → ElemValue → Text}
  {constOut : ConstNode → Text} {o : Outside t}

theorem mapM_eq_none {α β : Type*} {f : α → Option β} {xs : List α} {x : α} (hx : x ∈ xs)
    (h : f x = none) : xs.mapM f = none := by
  cases hall : xs.mapM f with
  | none => rfl
  | some ys =>
      obtain ⟨y, -, hy⟩ := exists_of_mapM hall hx
      rw [h] at hy
      cases hy

/-- A loop that adds what each round counts. -/
theorem mapM_sum {α : Type*} {f : α → Option ℤ} {g : α → ℕ} {xs : List α}
    (h : ∀ x ∈ xs, f x = some ((g x : ℕ) : ℤ)) :
    (xs.mapM f).map List.sum = some (((xs.map g).sum : ℕ) : ℤ) := by
  have hall : xs.mapM f = some (xs.map fun x => ((g x : ℕ) : ℤ)) := mapM_eq_pure h
  rw [hall, Option.map_some, Nat.cast_list_sum, List.map_map]
  rfl

def admittedRows (filters : SegmentFilters) (p : CountedPartition t s out) : ℕ :=
  (p.segments.map fun seg => seg.live.countP (admits s out filters)).sum

/-- Every segment that is decoded is decoded from its own time column. -/
def ReadsOwnTimes (readIdx : Option ℕ) (filters : SegmentFilters)
    (p : CountedPartition t s out) : Prop :=
  ∀ seg ∈ p.segments, loadSegmentsHeapSkips seg.toSegmentMeta filters = false →
    segFullyInBounds seg.toSegmentMeta filters.2.1 filters.2.2 = false →
      ∃ k, readIdx = some k ∧ p.layout.timeIdx = some k

theorem countPartition_eq {readIdx : Option ℕ} {filters : SegmentFilters}
    {p : CountedPartition t s out} (hread : ReadsOwnTimes readIdx filters p) :
    countPartition readIdx filters p = some ((admittedRows filters p : ℕ) : ℤ) := by
  rw [countPartition, mapM_sum (g := fun seg => seg.live.countP (admits s out filters))]
  · congr 2
    rw [admittedRows]
    generalize p.segments = segments
    induction segments with
    | nil => rfl
    | cons seg segments ih =>
        rw [List.map_cons, List.sum_cons]
        cases hskip : loadSegmentsHeapSkips seg.toSegmentMeta filters with
        | false =>
            rw [List.filter_cons_of_pos (by rw [hskip]; rfl), List.map_cons, List.sum_cons, ih]
        | true =>
            have hzero : seg.live.countP (admits s out filters) = 0 := by
              rw [List.countP_eq_zero]
              intro row hrow
              rw [not_admits_of_skipped hskip (mem_rows_of_mem_live seg hrow)]
              exact Bool.false_ne_true
            rw [List.filter_cons_of_neg (by rw [hskip]; exact Bool.false_ne_true), ih, hzero,
              Nat.zero_add]
  · intro seg hseg
    obtain ⟨hmem, hkept⟩ := List.mem_filter.mp hseg
    rw [Bool.not_eq_true'] at hkept
    exact countSegment_eq hkept (hread seg hmem hkept)

/-- One segment that cannot be decoded is an error. -/
theorem countPartition_eq_none {readIdx : Option ℕ} {filters : SegmentFilters}
    {p : CountedPartition t s out} {seg : CountedSegment t s out p.layout.timeIdx}
    (hseg : seg ∈ p.segments)
    (hkept : loadSegmentsHeapSkips seg.toSegmentMeta filters = false)
    (hnone : countSegment seg.toSegmentData readIdx filters.2.1 filters.2.2 = none) :
    countPartition readIdx filters p = none := by
  have hmem : seg ∈ p.segments.filter fun seg =>
      !loadSegmentsHeapSkips seg.toSegmentMeta filters :=
    List.mem_filter.mpr ⟨hseg, by rw [hkept]; rfl⟩
  rw [countPartition, mapM_eq_none hmem hnone]
  rfl

def HeapMatches (expectedNatts : ℕ) (p : CountedPartition t s out) : Prop :=
  p.hasLooseRows = true → expectedNatts = 0 ∨ p.layout.natts = expectedNatts

theorem countHeap_eq {quals : List QualNode} {expectedNatts : ℕ} {p : CountedPartition t s out}
    (h : HeapMatches expectedNatts p) :
    countHeap o quals expectedNatts p = some (p.looseRows.countP (passes o quals)) := by
  unfold countHeap
  cases hloose : p.hasLooseRows with
  | false =>
      rw [p.looseRows_eq hloose]
      rfl
  | true =>
      have hnot : ¬(expectedNatts ≠ 0 ∧ p.layout.natts ≠ expectedNatts) := fun hne =>
        (h hloose).elim hne.1 hne.2
      rw [if_neg (by decide), if_neg hnot]

theorem beginCountScan_where {quals : List QualNode} (hquals : quals ≠ [])
    {parts : List (CountedPartition t s out)} {first : CountedPartition t s out}
    (hfirst : parts.head? = some first)
    (hread : ∀ p ∈ parts, ReadsOwnTimes first.layout.timeIdx (filtersOf t s constOut quals) p)
    (hheap : ∀ p ∈ parts, HeapMatches (liveAttrs t.attrs).length p) :
    beginCountScan constOut o quals parts =
      some (((parts.map fun p => admittedRows (filtersOf t s constOut quals) p +
        p.looseRows.countP (passes o quals)).sum : ℕ) : ℤ) := by
  have hempty : quals.isEmpty = false := by
    rwa [← Bool.not_eq_true, List.isEmpty_iff]
  have htotal := mapM_sum fun p hp => countPartition_eq (hread p hp)
  have hloose : parts.mapM (countHeap o quals (liveAttrs t.attrs).length) =
      some (parts.map fun p => p.looseRows.countP (passes o quals)) :=
    mapM_eq_pure fun p hp => countHeap_eq (hheap p hp)
  rw [beginCountScan, hfirst, hempty]
  simp only [bind, Option.bind, Bool.false_eq_true, if_false, Option.none_or, htotal, hloose]
  rw [List.sum_map_add, Nat.cast_add]
  rfl

def liveRows (p : CountedPartition t s out) : ℕ :=
  (p.segments.map fun seg => seg.live.length).sum

theorem admittedRows_nil (p : CountedPartition t s out) :
    admittedRows ([], none, none) p = liveRows p := by
  rw [admittedRows, liveRows]
  congr 1
  apply List.map_congr_left
  intro seg _
  rw [List.countP_eq_length]
  intro row hrow
  obtain ⟨w, hw, -⟩ := seg.timed row (mem_rows_of_mem_live seg hrow)
  rw [admits, hw]
  rfl

theorem catalogTotal_eq {parts : List (CountedPartition t s out)} {total : ℤ}
    (h : catalogTotal parts = some total) : total = (((parts.map liveRows).sum : ℕ) : ℤ) := by
  obtain ⟨counts, hcounts, rfl⟩ := Option.map_eq_some_iff.mp h
  have hrow : ∀ (p : CountedPartition t s out) (c : ℤ), getRowCount p = some c →
      c = ((liveRows p : ℕ) : ℤ) := by
    intro p c hc
    unfold getRowCount at hc
    split_ifs at hc
    rw [← Option.some.inj hc, p.rowCount_eq]
    rfl
  have heq : counts = parts.map fun p => ((liveRows p : ℕ) : ℤ) := by
    have hall := forall₂_of_mapM hcounts
    clear h hcounts
    induction hall with
    | nil => rfl
    | cons hp _ ih => rw [List.map_cons, ← ih, hrow _ _ hp]
  rw [heq, Nat.cast_list_sum, List.map_map]
  rfl

theorem beginCountScan_nil {parts : List (CountedPartition t s out)} (hparts : parts ≠ []) :
    beginCountScan constOut o [] parts = some ((scanCount o [] parts : ℕ) : ℤ) := by
  obtain ⟨first, hfirst⟩ : ∃ first, parts.head? = some first := by
    cases parts with
    | nil => exact absurd rfl hparts
    | cons first rest => exact ⟨first, rfl⟩
  have hpass : (passes o [] : Row t → Bool) = fun _ => true := rfl
  have hscan : scanCount o [] parts =
      (parts.map liveRows).sum + (parts.map fun p => p.looseRows.length).sum := by
    rw [scanCount, ← List.sum_map_add]
    congr 1
    apply List.map_congr_left
    intro p _
    rw [scanPartition, hpass, List.countP_true, liveRows]
  have hloose : parts.mapM (countHeap o [] 0) =
      some (parts.map fun p => p.looseRows.length) := by
    apply mapM_eq_pure
    intro p _
    rw [countHeap_eq fun _ => .inl rfl, hpass, List.countP_true]
    rfl
  have hmeta : (parts.mapM (countPartition first.layout.timeIdx ([], none, none))).map List.sum =
      some (((parts.map liveRows).sum : ℕ) : ℤ) := by
    apply mapM_sum
    intro p _
    have hown : ReadsOwnTimes first.layout.timeIdx ([], none, none) p := by
      intro seg _ _ hfull
      cases hfull
    rw [countPartition_eq hown, admittedRows_nil]
  -- the catalog's total, or that of the segments
  have htotal : (catalogTotal parts).or
      ((parts.mapM (countPartition first.layout.timeIdx ([], none, none))).map List.sum) =
        some (((parts.map liveRows).sum : ℕ) : ℤ) := by
    cases hcatalog : catalogTotal parts with
    | none => exact hmeta
    | some total => rw [Option.some_or, catalogTotal_eq hcatalog]
  have hfilters : extractSegmentFilters constOut (loadParentColumns t.attrs) s [] =
      ([], none, none) := rfl
  rw [hscan, Nat.cast_add, beginCountScan, hfirst]
  simp only [bind, Option.bind, List.isEmpty_nil, if_true, hloose, hfilters, htotal]
  rfl

/-! ## When the total is the number of rows -/

/-- `COUNT(*)` is the number of rows, whatever the partitions with these layouts hold. -/
def CountsRows (constOut : ConstNode → Text) (o : Outside t) (s : Settings)
    (out : TypeOid → ElemValue → Text) (quals : List QualNode) (layouts : List Layout) : Prop :=
  ∀ parts : List (CountedPartition t s out), parts.map CountedPartition.layout = layouts →
    beginCountScan constOut o quals parts = some ((scanCount o quals parts : ℕ) : ℤ)

/-- The filters say what the clauses say, and the first partition's metadata serve all. -/
structure CountsRight (constOut : ConstNode → Text) (o : Outside t) (s : Settings)
    (out : TypeOid → ElemValue → Text) (quals : List QualNode) (first : Layout)
    (rest : List Layout) : Prop where
  meaning : ∀ row : Row t, Timed s row → ((∀ node ∈ quals, node.eval o row = some true) ↔
    ∀ node ∈ quals, HoldsRaw s out constOut row node)
  window : ((filtersOf t s constOut quals).2.1 ≠ none ∨
      (filtersOf t s constOut quals).2.2 ≠ none) →
    (∃ row : Row t, Timed s row ∧ admitsValues s out (filtersOf t s constOut quals) row = true) →
      ∀ l ∈ first :: rest, ∃ k, first.timeIdx = some k ∧ l.timeIdx = some k
  heap : ∀ l ∈ first :: rest, (liveAttrs t.attrs).length = 0 ∨
    l.natts = (liveAttrs t.attrs).length

theorem passes_iff {quals : List QualNode} {row : Row t} :
    passes o quals row = true ↔ ∀ node ∈ quals, node.eval o row = some true := by
  rw [passes, List.all_eq_true]
  simp only [decide_eq_true_eq]

theorem beginCountScan_of_right {quals : List QualNode} {first : Layout} {rest : List Layout}
    (h : CountsRight constOut o s out quals first rest) :
    CountsRows constOut o s out quals (first :: rest) := by
  intro parts hparts
  have hlayout : ∀ p ∈ parts, p.layout ∈ first :: rest := fun p hp =>
    hparts ▸ List.mem_map_of_mem hp
  obtain ⟨p, others, rfl⟩ : ∃ p others, parts = p :: others := by
    cases parts with
    | nil => cases hparts
    | cons p others => exact ⟨p, others, rfl⟩
  have hfirst : p.layout = first := (List.cons.inj hparts).1
  by_cases hquals : quals = []
  · rw [hquals]
    exact beginCountScan_nil (List.cons_ne_nil p others)
  · have hagree : ∀ row : Row t, Timed s row →
        admits s out (filtersOf t s constOut quals) row = passes o quals row := by
      intro row htimed
      rw [Bool.eq_iff_iff, admits_iff_holdsRaw s out constOut htimed, passes_iff]
      exact (h.meaning row htimed).symm
    rw [beginCountScan_where hquals List.head?_cons]
    · congr 3
      apply List.map_congr_left
      intro q _
      rw [scanPartition, admittedRows]
      congr 2
      apply List.map_congr_left
      intro seg _
      apply List.countP_congr
      intro row hrow
      rw [hagree row (seg.timed row (mem_rows_of_mem_live seg hrow))]
    · intro q hq seg _ hkept hfull
      rw [hfirst]
      apply h.window
      · by_contra hnone
        rw [not_or, not_not, not_not] at hnone
        rw [hnone.1, hnone.2] at hfull
        cases hfull
      · obtain ⟨row, hrow⟩ := List.exists_mem_of_ne_nil _ seg.rows_ne_nil
        refine ⟨row, seg.timed row hrow, ?_⟩
        exact (admitsValues_row hrow).mpr ((loads_iff _ _).mp hkept).segmentBy
      · exact hlayout q hq
    · intro q hq _
      exact h.heap _ (hlayout q hq)

def emptyPartition (s : Settings) (out : TypeOid → ElemValue → Text) (l : Layout) :
    CountedPartition t s out where
  layout := l
  rowCount := 0
  hasLooseRows := false
  segments := []
  looseRows := []
  rowCount_eq := rfl
  looseRows_eq := fun _ => rfl

def singlePartition (l : Layout) (seg : CountedSegment t s out l.timeIdx) :
    CountedPartition t s out where
  layout := l
  rowCount := (seg.live.length : ℕ)
  hasLooseRows := false
  segments := [seg]
  looseRows := []
  rowCount_eq := by rw [List.map_singleton, List.sum_singleton]
  looseRows_eq := fun _ => rfl

def rowSegment (out : TypeOid → ElemValue → Text) (timeIdx : Option ℕ) {row : Row t}
    (htimed : Timed s row) {low high : ℤ}
    (hbounds : ∀ w, timeWord s row = some w → low ≤ w ∧ w ≤ high) :
    CountedSegment t s out timeIdx where
  segmentValues := segmentValuesOf s out row
  minTime := some low
  maxTime := some high
  rowCount := 1
  tombstones := none
  timesAt := fun k => if timeIdx = some k then some [timeWord s row] else none
  rows := [row]
  rows_ne_nil := List.cons_ne_nil row []
  rowCount_eq := rfl
  segmentValues_eq := fun row' hrow => by rw [List.mem_singleton.mp hrow]
  timed := fun row' hrow => by rwa [List.mem_singleton.mp hrow]
  minTime_le := fun m hm row' hrow w hw => by
    rw [List.mem_singleton.mp hrow] at hw
    exact Option.some.inj hm ▸ (hbounds w hw).1
  le_maxTime := fun m hm row' hrow w hw => by
    rw [List.mem_singleton.mp hrow] at hw
    exact Option.some.inj hm ▸ (hbounds w hw).2
  tombstones_nodup := fun _ htombs => by cases htombs
  tombstones_lt := fun _ htombs => by cases htombs
  timesAt_eq := fun k hk => by rw [if_pos hk, List.map_singleton]

variable {quals : List QualNode} {first : Layout} {rest : List Layout}

theorem sum_emptyPartitions {f : CountedPartition t s out → ℕ}
    (hf : ∀ l, f (emptyPartition s out l) = 0) (layouts : List Layout) :
    ((layouts.map (emptyPartition s out)).map f).sum = 0 := by
  induction layouts with
  | nil => rfl
  | cons l layouts ih => rw [List.map_cons, List.map_cons, List.sum_cons, hf, ih]

theorem layout_emptyPartitions (layouts : List Layout) :
    (layouts.map (emptyPartition s out : Layout → CountedPartition t s out)).map
      CountedPartition.layout = layouts := by
  rw [List.map_map]
  exact List.map_id layouts

theorem meaning_of_countsRows (hquals : quals ≠ [])
    (h : CountsRows constOut o s out quals (first :: rest)) {row : Row t} (htimed : Timed s row) :
    (∀ node ∈ quals, node.eval o row = some true) ↔
      ∀ node ∈ quals, HoldsRaw s out constOut row node := by
  obtain ⟨w, hw, -⟩ := id htimed
  have hbounds : ∀ w', timeWord s row = some w' → w ≤ w' ∧ w' ≤ w := fun w' hw' => by
    rw [hw, Option.some.injEq] at hw'
    omega
  let seg := rowSegment out first.timeIdx htimed hbounds
  let single : CountedPartition t s out := singlePartition first seg
  have hcount := h (single :: rest.map (emptyPartition s out))
    (congrArg (List.cons first) (layout_emptyPartitions rest))
  have hwhere : beginCountScan constOut o quals (single :: rest.map (emptyPartition s out)) = _ :=
    beginCountScan_where hquals List.head?_cons ?_ ?_
  · have hadmitted : admittedRows (filtersOf t s constOut quals) single +
        single.looseRows.countP (passes o quals) =
          [row].countP (admits s out (filtersOf t s constOut quals)) := Nat.add_zero _
    have hscan : scanPartition o quals single = [row].countP (passes o quals) := Nat.add_zero _
    rw [hwhere, Option.some.injEq, Nat.cast_inj, scanCount, List.map_cons, List.sum_cons,
      List.map_cons, List.sum_cons, sum_emptyPartitions (fun _ => rfl),
      sum_emptyPartitions (fun _ => rfl), hadmitted, hscan, List.countP_singleton,
      List.countP_singleton] at hcount
    have hsame : ∀ a b : Bool, (if a = true then 1 else 0) = (if b = true then 1 else 0) → a = b :=
      by decide
    rw [← passes_iff, ← admits_iff_holdsRaw s out constOut htimed, hsame _ _ hcount]
  · intro p hp seg' hseg' hkept hfull
    cases List.mem_cons.mp hp with
    | inl hsingle =>
        subst hsingle
        rw [List.mem_singleton.mp hseg'] at hkept hfull
        have hall := (loads_iff _ _).mp hkept
        have hfull' : segFullyInBounds seg.toSegmentMeta (filtersOf t s constOut quals).2.1
            (filtersOf t s constOut quals).2.2 = true :=
          segFullyInBounds_iff.mpr
            ⟨fun l hl => ⟨w, rfl, hall.timeMin l hl w w rfl rfl⟩,
              fun u hu => ⟨w, rfl, hall.timeMax u hu w w rfl rfl⟩⟩
        rw [hfull'] at hfull
        cases hfull
    | inr hempty =>
        obtain ⟨l, -, rfl⟩ := List.mem_map.mp hempty
        cases hseg'
  · intro p hp hloose
    cases List.mem_cons.mp hp with
    | inl hsingle =>
        subst hsingle
        cases hloose
    | inr hempty =>
        obtain ⟨l, -, rfl⟩ := List.mem_map.mp hempty
        cases hloose

/-- A partition anywhere among empty ones that cannot be counted. -/
theorem not_countsRows_of_none (hquals : quals ≠ []) {l : Layout} (hl : l ∈ first :: rest)
    {p : CountedPartition t s out} (hlayout : p.layout = l)
    (hnone : countPartition first.timeIdx (filtersOf t s constOut quals) p = none ∨
      countHeap o quals (liveAttrs t.attrs).length p = none) :
    ¬ CountsRows constOut o s out quals (first :: rest) := by
  intro h
  obtain ⟨xs, ys, hsplit⟩ := List.append_of_mem hl
  let parts : List (CountedPartition t s out) :=
    xs.map (emptyPartition s out) ++ p :: ys.map (emptyPartition s out)
  have hlayouts : parts.map CountedPartition.layout = first :: rest := by
    rw [List.map_append, List.map_cons, layout_emptyPartitions, layout_emptyPartitions, hlayout,
      hsplit]
  have hmem : p ∈ parts := List.mem_append_right _ List.mem_cons_self
  have hcount := h parts hlayouts
  obtain ⟨q, hq, hfirst⟩ : ∃ q, parts.head? = some q ∧ q.layout = first := by
    cases hparts : parts with
    | nil =>
        rw [hparts] at hmem
        cases hmem
    | cons q others =>
        rw [hparts] at hlayouts
        exact ⟨q, rfl, (List.cons.inj hlayouts).1⟩
  have hempty : quals.isEmpty = false := by
    rwa [← Bool.not_eq_true, List.isEmpty_iff]
  rw [beginCountScan, hq] at hcount
  simp only [bind, Option.bind, hempty, Bool.false_eq_true, if_false, Option.none_or, hfirst]
    at hcount
  cases hnone with
  | inl hnone =>
      rw [mapM_eq_none hmem hnone] at hcount
      cases hcount
  | inr hnone =>
      rw [mapM_eq_none hmem hnone] at hcount
      split at hcount <;> cases hcount

/-- Bounds around a time and both ends of a window. -/
def lowEnd (lo hi : Option ℤ) (w : ℤ) : ℤ :=
  min w (min (lo.getD (hi.getD 0)) (hi.getD (lo.getD 0)) - 1)

def highEnd (lo hi : Option ℤ) (w : ℤ) : ℤ :=
  max w (max (lo.getD (hi.getD 0)) (hi.getD (lo.getD 0)))

theorem lowEnd_le (lo hi : Option ℤ) (w : ℤ) : lowEnd lo hi w ≤ w ∧ w ≤ highEnd lo hi w :=
  ⟨min_le_left _ _, le_max_left _ _⟩

theorem ends_straddle {lo hi : Option ℤ} (w : ℤ) :
    (∀ l, lo = some l → lowEnd lo hi w < l ∧ l ≤ highEnd lo hi w) ∧
      ∀ h, hi = some h → lowEnd lo hi w < h ∧ h ≤ highEnd lo hi w := by
  unfold lowEnd highEnd
  constructor
  · rintro l rfl
    cases hi with
    | none => simp only [Option.getD_some, Option.getD_none]; omega
    | some h => simp only [Option.getD_some]; omega
  · rintro h rfl
    cases lo with
    | none => simp only [Option.getD_some, Option.getD_none]; omega
    | some l => simp only [Option.getD_some]; omega

/-- A segment across an end of the window is decoded under the first partition's number. -/
theorem window_of_countsRows (hquals : quals ≠ [])
    (h : CountsRows constOut o s out quals (first :: rest))
    (hbounded : (filtersOf t s constOut quals).2.1 ≠ none ∨
      (filtersOf t s constOut quals).2.2 ≠ none)
    {row : Row t} (htimed : Timed s row)
    (hvalues : admitsValues s out (filtersOf t s constOut quals) row = true) {l : Layout}
    (hl : l ∈ first :: rest) : ∃ k, first.timeIdx = some k ∧ l.timeIdx = some k := by
  by_contra hdiffer
  obtain ⟨w, hw, -⟩ := id htimed
  obtain ⟨hlo, hhi⟩ := @ends_straddle (filtersOf t s constOut quals).2.1
    (filtersOf t s constOut quals).2.2 w
  have hbounds : ∀ w', timeWord s row = some w' →
      lowEnd (filtersOf t s constOut quals).2.1 (filtersOf t s constOut quals).2.2 w ≤ w' ∧
        w' ≤ highEnd (filtersOf t s constOut quals).2.1 (filtersOf t s constOut quals).2.2 w := by
    intro w' hw'
    rw [hw, Option.some.injEq] at hw'
    rw [← hw']
    exact lowEnd_le _ _ w
  let seg := rowSegment out l.timeIdx htimed hbounds
  have hkept : loadSegmentsHeapSkips seg.toSegmentMeta (filtersOf t s constOut quals) = false := by
    rw [loads_iff]
    refine ⟨(admitsValues_iff s out).mp hvalues, fun lo h segMin segMax hmin hmax => ?_,
      fun hi h segMin segMax hmin hmax => ?_⟩
    · rw [← Option.some.inj hmax]
      exact (hlo lo h).2
    · rw [← Option.some.inj hmin]
      exact (hhi hi h).1
  have hpartial : segFullyInBounds seg.toSegmentMeta (filtersOf t s constOut quals).2.1
      (filtersOf t s constOut quals).2.2 = false := by
    rw [← Bool.not_eq_true, segFullyInBounds_iff]
    rintro ⟨hmin, hmax⟩
    cases hbounded with
    | inl hsome =>
        obtain ⟨lo, hlo'⟩ := Option.ne_none_iff_exists'.mp hsome
        obtain ⟨m, hm, hle⟩ := hmin lo hlo'
        have hlt := (hlo lo hlo').1
        rw [Option.some.inj hm] at hlt
        omega
    | inr hsome =>
        obtain ⟨hi, hhi'⟩ := Option.ne_none_iff_exists'.mp hsome
        obtain ⟨m, hm, hlt⟩ := hmax hi hhi'
        have hle := (hhi hi hhi').2
        rw [Option.some.inj hm] at hle
        omega
  have hblob : first.timeIdx.bind seg.timesAt = none := by
    cases hread : first.timeIdx with
    | none => rfl
    | some k => exact if_neg fun hown => hdiffer ⟨k, hread, hown⟩
  refine not_countsRows_of_none hquals hl (p := singlePartition l seg) rfl (.inl ?_) h
  apply countPartition_eq_none (List.mem_singleton_self seg) hkept
  rw [countSegment, hpartial, if_neg Bool.false_ne_true, partialSegmentTimeMask, hblob]
  rfl

theorem heap_of_countsRows (hquals : quals ≠ [])
    (h : CountsRows constOut o s out quals (first :: rest)) {l : Layout}
    (hl : l ∈ first :: rest) :
    (liveAttrs t.attrs).length = 0 ∨ l.natts = (liveAttrs t.attrs).length := by
  by_contra hdiffer
  rw [not_or] at hdiffer
  let loose : CountedPartition t s out :=
    { (emptyPartition s out l : CountedPartition t s out) with
      hasLooseRows := true
      looseRows_eq := fun hflag => by cases hflag }
  refine not_countsRows_of_none hquals hl (p := loose) rfl (.inr ?_) h
  exact (if_neg Bool.false_ne_true).trans (if_pos hdiffer)

/-- `COUNT(*)` is the number of rows for all contents exactly without a WHERE clause, or when
its clauses are read as they are meant and the layouts agree. -/
theorem countsRows_iff (constOut : ConstNode → Text) (o : Outside t) (s : Settings)
    (out : TypeOid → ElemValue → Text) (quals : List QualNode) (first : Layout)
    (rest : List Layout) :
    CountsRows constOut o s out quals (first :: rest) ↔
      quals = [] ∨ CountsRight constOut o s out quals first rest := by
  constructor
  · intro h
    by_cases hquals : quals = []
    · exact .inl hquals
    · right
      refine ⟨fun row htimed => meaning_of_countsRows hquals h htimed, ?_, fun l hl =>
        heap_of_countsRows hquals h hl⟩
      intro hbounded ⟨row, htimed, hvalues⟩ l hl
      exact window_of_countsRows hquals h hbounded htimed hvalues hl
  · intro h
    cases h with
    | inl hquals =>
        intro parts hparts
        rw [hquals]
        apply beginCountScan_nil
        rintro rfl
        cases hparts
    | inr hright => exact beginCountScan_of_right hright

end total

/-! ## Windows and values that are read right -/

section plain

variable {t : Table} {s : Settings} {out : TypeOid → ElemValue → Text}
  {constOut : ConstNode → Text} {o : Outside t}

theorem holdsRaw_columnComparison {x : Attr} (hx : x ∈ liveAttrs t.attrs)
    (hhole : NoHole t x.attnum) {op : OpName} {ty cty : TypeOid} {value : ConstValue}
    {varOnLeft : Bool} {row : Row t} :
    HoldsRaw s out constOut row (columnComparison op x.attnum ty ⟨cty, some value⟩ varOnLeft) ↔
      (op = .eq → s.isSegmentBy x = true →
        (row.cell x.attnum).map (out x.dataType.typeOid) = some (constOut ⟨cty, some value⟩)) ∧
      (x.name = s.timeColumn → ∀ w, timeWord s row = some w →
        (if varOnLeft then op else flipOpName op).wordHolds w value.word.toInt) := by
  have hargs : ∃ arg0 arg1, columnComparison op x.attnum ty ⟨cty, some value⟩ varOnLeft =
      .opExpr op [arg0, arg1] ∧
        varAndConst arg0 arg1 = some (↑x.attnum, ⟨cty, some value⟩, varOnLeft) := by
    cases varOnLeft
    · exact ⟨_, _, rfl, rfl⟩
    · exact ⟨_, _, rfl, rfl⟩
  obtain ⟨arg0, arg1, hnode, hfound⟩ := hargs
  have hget := getElem?_live_pred hx hhole
  have hpos : varPosition (loadParentColumns t.attrs) x.attnum = some (x.attnum - 1) := by
    obtain ⟨hlt, -⟩ := List.getElem?_eq_some_iff.mp hget
    obtain ⟨hone, -, -⟩ := getElem?_of_attnum t.attnum_eq (List.mem_filter.mp hx).1
    have hlen : (loadParentColumns t.attrs).names.length = (liveAttrs t.attrs).length :=
      List.length_map _
    rw [varPosition, hlen, if_neg (by omega), Option.some.injEq]
    omega
  rw [hnode, HoldsRaw, hfound]
  dsimp only
  constructor
  · intro h
    exact h _ x hpos hget
  · intro h ci a hci ha
    rw [hpos, Option.some.injEq] at hci
    rw [← hci, hget, Option.some.injEq] at ha
    rw [← ha]
    exact h

theorem sqlOperator_iff_wordHolds {ty : TypeOid} (hty : ty = .timestamp ∨ ty = .timestamptz)
    {op : OpName} (hop : op = .ge ∨ op = .gt ∨ op = .lt ∨ op = .le) {d c : Datum} :
    (sqlOperator o op ty ty (.datum d) (.datum c) = some true ↔ op.wordHolds d.toInt c.toInt) ∧
      (sqlOperator o op ty ty (.datum c) (.datum d) = some true ↔
        (flipOpName op).wordHolds d.toInt c.toInt) := by
  have hkeys : sameKeys ty ty = true := by
    rcases hty with rfl | rfl <;> rfl
  have hkey : ∀ d : Datum, sqlKey ty d = ((d.toInt : ℤ) : WithTop ℤ) := by
    intro d
    rcases hty with rfl | rfl <;> rfl
  obtain ⟨cmp, hcmp⟩ : ∃ cmp, op.comparison = some cmp := by
    rcases hop with rfl | rfl | rfl | rfl <;> exact ⟨_, rfl⟩
  rw [sqlOperator_datum o hcmp hkeys, sqlOperator_datum o hcmp hkeys, Option.some.injEq,
    Option.some.injEq, decide_eq_true_eq, decide_eq_true_eq, hkey, hkey]
  rcases hop with rfl | rfl | rfl | rfl <;> cases hcmp <;>
    simp [OpName.wordHolds, flipOpName, Comparison.Holds]

/-- A bound on a timestamp column with a constant of its own type, or a text segment-by column
equal to a text. -/
inductive PlainQual (t : Table) (s : Settings) : QualNode → Prop
  | window {x : Attr} {ty : TypeOid} {op : OpName} {c : Datum} {varOnLeft : Bool}
      (hx : x ∈ liveAttrs t.attrs) (hhole : NoHole t x.attnum) (hname : x.name = s.timeColumn)
      (htype : x.dataType.typeOid = ty) (hty : ty = .timestamp ∨ ty = .timestamptz)
      (hop : op = .ge ∨ op = .gt ∨ op = .lt ∨ op = .le) :
      PlainQual t s (columnComparison op x.attnum ty ⟨ty, some (.datum c)⟩ varOnLeft)
  | value {x : Attr} {c : Text} {varOnLeft : Bool}
      (hx : x ∈ liveAttrs t.attrs) (hhole : NoHole t x.attnum) (hname : x.name ≠ s.timeColumn)
      (hseg : s.isSegmentBy x = true) (htype : x.dataType.typeOid = .text) :
      PlainQual t s (columnComparison .eq x.attnum .text ⟨.text, some (.text c)⟩ varOnLeft)

/-- Such a clause is read as it is meant. -/
theorem PlainQual.eval_iff {node : QualNode} (hplain : PlainQual t s node)
    (hout : ∀ text, out .text (.text text) = text)
    (hconst : ∀ text, constOut ⟨.text, some (.text text)⟩ = text) {row : Row t}
    (htimed : Timed s row) : node.eval o row = some true ↔ HoldsRaw s out constOut row node := by
  cases hplain with
  | @window x ty op c varOnLeft hx hhole hname htype hty hop =>
      obtain ⟨w, hw, -⟩ := htimed
      have hcell := hw
      rw [timeWord_of_name hx hname, Option.bind_eq_some_iff] at hcell
      obtain ⟨v, hv, hword⟩ := hcell
      obtain ⟨d, rfl⟩ : ∃ d, v = .datum d := by
        cases v with
        | datum d => exact ⟨d, rfl⟩
        | text text => cases hword
      obtain rfl : d.toInt = w := Option.some.inj hword
      have hne : op ≠ .eq := by
        rintro rfl
        rcases hop with h | h | h | h <;> cases h
      obtain ⟨hleft, hright⟩ := @sqlOperator_iff_wordHolds t o ty hty op hop d c
      rw [holdsRaw_columnComparison hx hhole]
      have heval : (columnComparison op x.attnum ty ⟨ty, some (.datum c)⟩ varOnLeft).eval o row =
          if varOnLeft then sqlOperator o op ty ty (.datum d) (.datum c)
          else sqlOperator o op ty ty (.datum c) (.datum d) := by
        cases varOnLeft <;> simp [columnComparison, QualNode.eval, Operand.value, Operand.typeOid,
          hv, sqlApply, ConstValue.elem]
      have hmeans : (columnComparison op x.attnum ty ⟨ty, some (.datum c)⟩ varOnLeft).eval o row =
          some true ↔ (if varOnLeft then op else flipOpName op).wordHolds d.toInt c.toInt := by
        rw [heval]
        cases varOnLeft
        · exact hright
        · exact hleft
      rw [hmeans]
      constructor
      · intro h
        refine ⟨fun heq => absurd heq hne, fun _ w' hw' => ?_⟩
        rw [hw, Option.some.injEq] at hw'
        exact hw' ▸ h
      · intro h
        exact h.2 hname _ hw
  | @value x c varOnLeft hx hhole hname hseg htype =>
      rw [holdsRaw_columnComparison hx hhole, htype, hconst]
      have heval : (columnComparison .eq x.attnum .text ⟨.text, some (.text c)⟩ varOnLeft).eval o
          row = some true ↔ row.cell x.attnum = some (.text c) := by
        cases hv : row.cell x.attnum with
        | none => cases varOnLeft <;> simp [columnComparison, QualNode.eval, Operand.value, hv,
            sqlApply]
        | some v =>
            have htyped := row.typed x hx v hv
            rw [htype] at htyped
            cases v with
            | datum d => cases htyped
            | text text => cases varOnLeft <;> simp [columnComparison, QualNode.eval,
                Operand.value, Operand.typeOid, hv, sqlApply, ConstValue.elem, sqlOperator,
                isVarText, eq_comm]
      have hcell : (row.cell x.attnum).map (out .text) = some c ↔
          row.cell x.attnum = some (.text c) := by
        cases hv : row.cell x.attnum with
        | none => simp
        | some v =>
            have htyped := row.typed x hx v hv
            rw [htype] at htyped
            cases v with
            | datum d => cases htyped
            | text text => simp [hout]
      rw [heval, hcell]
      constructor
      · exact fun h => ⟨fun _ _ => h, fun htime => absurd htime hname⟩
      · exact fun h => h.1 rfl hseg

/-- Windows and text values are counted right, with one layout throughout. -/
theorem countsRows_plain {quals : List QualNode} (hplain : ∀ node ∈ quals, PlainQual t s node)
    (hout : ∀ text, out .text (.text text) = text)
    (hconst : ∀ text, constOut ⟨.text, some (.text text)⟩ = text) {k : ℕ} {first : Layout}
    {rest : List Layout} (hlayouts : ∀ l ∈ first :: rest, l = ⟨some k, (liveAttrs t.attrs).length⟩) :
    CountsRows constOut o s out quals (first :: rest) := by
  apply beginCountScan_of_right
  refine ⟨fun row htimed => forall₂_congr fun node hnode =>
    (hplain node hnode).eval_iff hout hconst htimed, fun _ _ l hl => ⟨k, ?_, ?_⟩, fun l hl => ?_⟩
  · rw [hlayouts first List.mem_cons_self]
  · rw [hlayouts l hl]
  · rw [hlayouts l hl]
    exact .inr rfl

end plain

/-! ## A relabelled column and a date -/

/-- `(ts timestamp, host varchar)`, segmented by the host. -/
def hostTable : Table where
  attrs := [⟨1, "ts".toList, .timestamp, -1, false, none⟩,
    ⟨2, "host".toList, .varchar, -1, false, none⟩]
  attnum_eq := rfl
  names_nodup := by decide

def hostSettings : Settings := ⟨"ts".toList, ["host".toList], []⟩

/-- A timestamp compares with a date as with its midnight. -/
def hostOutside : Outside hostTable where
  operand := fun _ => none
  node := fun _ => none
  operator := fun op lt rt l r =>
    match op, lt, rt, l, r with
    | .ge, .timestamp, .date, .datum a, .datum b =>
        some (decide ((b.setWidth 32).toInt * 86400000000 ≤ a.toInt))
    | _, _, _, _, _ => none

def textOut (_ : TypeOid) : ElemValue → Text
  | .datum _ => []
  | .text s => s

def textConstOut (c : ConstNode) : Text :=
  match c.value with
  | some (.text s) => s
  | _ => []

/-- 2024-01-01 10:00 of `web2`. -/
def hostRow : Row hostTable where
  cell attno := if attno = 1 then some (.datum 757418400000000)
    else if attno = 2 then some (.text "web2".toList) else none
  typed := by
    have hnumbers : ∀ a ∈ liveAttrs hostTable.attrs,
        a.attnum = 1 ∧ isTextType a.dataType.typeOid = false ∨
          a.attnum = 2 ∧ isTextType a.dataType.typeOid = true := by
      intro a ha
      have hlist : liveAttrs hostTable.attrs = [⟨1, "ts".toList, .timestamp, -1, false, none⟩,
        ⟨2, "host".toList, .varchar, -1, false, none⟩] := rfl
      rw [hlist, List.mem_cons, List.mem_singleton] at ha
      rcases ha with rfl | rfl
      · exact .inl ⟨rfl, rfl⟩
      · exact .inr ⟨rfl, rfl⟩
    intro a ha v hv
    rcases hnumbers a ha with ⟨hnum, hty⟩ | ⟨hnum, hty⟩
    · rw [hnum] at hv
      obtain rfl := Option.some.inj hv
      exact hty
    · rw [hnum] at hv
      obtain rfl := Option.some.inj hv
      exact hty

def hostLayout : Layout := ⟨some 0, 2⟩

theorem timed_hostRow : Timed hostSettings hostRow := ⟨757418400000000, by decide, by decide⟩

theorem hostRow_bounds (w : ℤ) (hw : timeWord hostSettings hostRow = some w) :
    757418400000000 ≤ w ∧ w ≤ 757418400000000 := by
  have hword : timeWord hostSettings hostRow = some 757418400000000 := by decide
  rw [hword, Option.some.injEq] at hw
  omega

def hostPartition : CountedPartition hostTable hostSettings textOut :=
  singlePartition hostLayout (rowSegment textOut hostLayout.timeIdx timed_hostRow hostRow_bounds)

/-- `host = 'web1'`: the column is relabelled as text. -/
def hostQuals : List QualNode :=
  [.opExpr .eq [.relabel (.var 2 .varchar), .const ⟨.text, some (.text "web1".toList)⟩]]

/-- `ts >= DATE '2024-01-02'`. -/
def sinceQuals : List QualNode :=
  [.opExpr .ge [.var 1 .timestamp, .const ⟨.date, some (.datum 8767)⟩]]

/-- The planner's gate takes both clauses; no filter is found in the first, and the second is
read as a number of microseconds. -/
theorem count_without_filter :
    ((classifyMetaQuals hostTable hostSettings hostQuals).isSome = true ∧
      beginCountScan textConstOut hostOutside hostQuals [hostPartition] = some 1 ∧
      scanCount hostOutside hostQuals [hostPartition] = 0) ∧
    (classifyMetaQuals hostTable hostSettings sinceQuals).isSome = true ∧
      beginCountScan textConstOut hostOutside sinceQuals [hostPartition] = some 1 ∧
      scanCount hostOutside sinceQuals [hostPartition] = 0 := by
  refine ⟨⟨by decide, by decide, by decide⟩, by decide, by decide, by decide⟩

end DeltaX.Scan.CountStar
