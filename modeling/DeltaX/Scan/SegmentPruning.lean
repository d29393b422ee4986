import DeltaX.Scan.WhereGate
/-!
# Pruning by segment values and by time

Whole segments are skipped by the text of their segment-by values and by the bounds of
their time column.  The bounds of a query are kept as one half-open interval of words.
Three executors apply them: the loader of the segment metadata, the append scan, and
the workers of a parallel aggregate.
-/

namespace DeltaX.Scan

open Column Schema MinMax Support.KeySpan Support.Numbering

/-! ## Skipping -/

structure SegmentMeta where
  segmentValues : List (Option Text)
  minTime : Option ℤ
  maxTime : Option ℤ
deriving DecidableEq, Repr

abbrev SegmentFilters : Type := List (ℕ × Text) × Option ℤ × Option ℤ

/-- The time test; `past` is the comparison with `time_max`. -/
def timeRangeSkips (past : ℤ → ℤ → Bool) (seg : SegmentMeta) (timeMin timeMax : Option ℤ) : Bool :=
  match seg.minTime, seg.maxTime with
  | some segMin, some segMax =>
      timeMin.any (fun qmin => decide (segMax < qmin)) || timeMax.any (past segMin)
  | _, _ => false

def loadSegmentsHeapSkips (seg : SegmentMeta) (filters : SegmentFilters) : Bool :=
  filters.1.any (fun f => decide ((seg.segmentValues[f.1]?).join ≠ some f.2)) ||
    timeRangeSkips (fun segMin qmax => decide (qmax ≤ segMin)) seg filters.2.1 filters.2.2

/-- The segment-by test of the scans, where a position past the values panics. -/
def segmentBySkips (seg : SegmentMeta) : List (ℕ × Text) → Option Bool
  | [] => some false
  | (sv, filterVal) :: filters =>
      match seg.segmentValues[sv]? with
      | none => none
      | some val => if val = some filterVal then segmentBySkips seg filters else some true

def segmentPrePrunedByMetadata (seg : SegmentMeta) (filters : SegmentFilters) : Option Bool :=
  (segmentBySkips seg filters.1).map fun skip =>
    skip || timeRangeSkips (fun segMin qmax => decide (qmax ≤ segMin)) seg filters.2.1 filters.2.2

/-- The pruning of `process_segments_compact_filtered`; its upper bound is inclusive. -/
def workerSkips (seg : SegmentMeta) (filters : SegmentFilters) : Option Bool :=
  (segmentBySkips seg filters.1).map fun skip =>
    skip || timeRangeSkips (fun segMin qmax => decide (qmax < segMin)) seg filters.2.1 filters.2.2

/-- No executor skips the segment, and none panics. -/
structure Survives (seg : SegmentMeta) (filters : SegmentFilters) : Prop where
  load : loadSegmentsHeapSkips seg filters = false
  append : segmentPrePrunedByMetadata seg filters = some false
  worker : workerSkips seg filters = some false

/-! ## One filter after the other -/

def SegmentMeta.Reaches (seg : SegmentMeta) (lo : ℤ) : Prop :=
  ∀ segMin segMax, seg.minTime = some segMin → seg.maxTime = some segMax → lo ≤ segMax

def SegmentMeta.Begins (seg : SegmentMeta) (hi : ℤ) : Prop :=
  ∀ segMin segMax, seg.minTime = some segMin → seg.maxTime = some segMax → segMin < hi

def SegmentFilter.Admits (seg : SegmentMeta) : SegmentFilter → Prop
  | .segmentBy _ sv value => (seg.segmentValues[sv]?).join = some value
  | .timeMin _ lo => seg.Reaches lo
  | .timeMax _ hi => seg.Begins hi

structure AdmitsAll (seg : SegmentMeta) (found : SegmentFilters) : Prop where
  segmentBy : ∀ f ∈ found.1, (seg.segmentValues[f.1]?).join = some f.2
  timeMin : ∀ qmin, found.2.1 = some qmin → seg.Reaches qmin
  timeMax : ∀ qmax, found.2.2 = some qmax → seg.Begins qmax

theorem reaches_max {seg : SegmentMeta} {lo lo' : ℤ} :
    seg.Reaches (max lo lo') ↔ seg.Reaches lo ∧ seg.Reaches lo' := by
  simp only [SegmentMeta.Reaches, max_le_iff]
  grind

theorem begins_min {seg : SegmentMeta} {hi hi' : ℤ} :
    seg.Begins (min hi hi') ↔ seg.Begins hi ∧ seg.Begins hi' := by
  simp only [SegmentMeta.Begins, lt_min_iff]
  grind

theorem admitsAll_addFilter (seg : SegmentMeta) (found : SegmentFilters) (f : SegmentFilter) :
    AdmitsAll seg (addFilter found f) ↔ AdmitsAll seg found ∧ f.Admits seg := by
  obtain ⟨bySegment, timeMin, timeMax⟩ := found
  cases f with
  | segmentBy ci sv value =>
      constructor
      · intro h
        refine ⟨⟨fun f hf => h.segmentBy f (List.mem_append_left _ hf), h.timeMin, h.timeMax⟩, ?_⟩
        exact h.segmentBy (sv, value) (List.mem_append_right _ (List.mem_singleton_self _))
      · intro ⟨h, hvalue⟩
        refine ⟨fun f hf => ?_, h.timeMin, h.timeMax⟩
        rcases List.mem_append.mp hf with hf | hf
        · exact h.segmentBy f hf
        · rw [List.mem_singleton.mp hf]
          exact hvalue
  | timeMin ci lo =>
      have hbound : (∀ qmin, (addFilter (bySegment, timeMin, timeMax) (.timeMin ci lo)).2.1 =
          some qmin → seg.Reaches qmin) ↔
            (∀ qmin, timeMin = some qmin → seg.Reaches qmin) ∧ seg.Reaches lo := by
        cases timeMin <;> simp [addFilter, reaches_max]
      constructor
      · intro h
        obtain ⟨hmin, hlo⟩ := hbound.mp h.timeMin
        exact ⟨⟨h.segmentBy, hmin, h.timeMax⟩, hlo⟩
      · intro ⟨h, hlo⟩
        exact ⟨h.segmentBy, hbound.mpr ⟨h.timeMin, hlo⟩, h.timeMax⟩
  | timeMax ci hi =>
      have hbound : (∀ qmax, (addFilter (bySegment, timeMin, timeMax) (.timeMax ci hi)).2.2 =
          some qmax → seg.Begins qmax) ↔
            (∀ qmax, timeMax = some qmax → seg.Begins qmax) ∧ seg.Begins hi := by
        cases timeMax <;> simp [addFilter, begins_min]
      constructor
      · intro h
        obtain ⟨hmax, hhi⟩ := hbound.mp h.timeMax
        exact ⟨⟨h.segmentBy, h.timeMin, hmax⟩, hhi⟩
      · intro ⟨h, hhi⟩
        exact ⟨h.segmentBy, h.timeMin, hbound.mpr ⟨h.timeMax, hhi⟩⟩

theorem admitsAll_foldl (seg : SegmentMeta) (filters : List SegmentFilter) (found : SegmentFilters) :
    AdmitsAll seg (filters.foldl addFilter found) ↔
      AdmitsAll seg found ∧ ∀ f ∈ filters, f.Admits seg := by
  induction filters generalizing found with
  | nil => simp
  | cons f filters ih =>
      rw [List.foldl_cons, ih, admitsAll_addFilter, List.forall_mem_cons, and_assoc]

theorem timeRangeSkips_eq_false_iff {past : ℤ → ℤ → Bool} {seg : SegmentMeta}
    {timeMin timeMax : Option ℤ} :
    timeRangeSkips past seg timeMin timeMax = false ↔
      ∀ segMin segMax, seg.minTime = some segMin → seg.maxTime = some segMax →
        (∀ qmin, timeMin = some qmin → qmin ≤ segMax) ∧
          ∀ qmax, timeMax = some qmax → past segMin qmax = false := by
  unfold timeRangeSkips
  obtain ⟨values, minTime, maxTime⟩ := seg
  cases minTime <;> cases maxTime <;> cases timeMin <;> cases timeMax <;> simp

theorem segmentBySkips_eq_false_iff (seg : SegmentMeta) (filters : List (ℕ × Text)) :
    segmentBySkips seg filters = some false ↔
      ∀ f ∈ filters, (seg.segmentValues[f.1]?).join = some f.2 := by
  induction filters with
  | nil => simp [segmentBySkips]
  | cons f filters ih =>
      rw [List.forall_mem_cons, segmentBySkips]
      cases hval : seg.segmentValues[f.1]? with
      | none => simp
      | some val =>
          by_cases hsame : val = some f.2
          · simp [hsame, ih]
          · simp [hsame]

/-- The loader keeps what the filters admit. -/
theorem loads_iff (seg : SegmentMeta) (filters : SegmentFilters) :
    loadSegmentsHeapSkips seg filters = false ↔ AdmitsAll seg filters := by
  rw [loadSegmentsHeapSkips, Bool.or_eq_false_iff, timeRangeSkips_eq_false_iff,
    List.any_eq_false]
  simp only [decide_eq_true_eq, not_not, decide_eq_false_iff_not, not_le]
  constructor
  · rintro ⟨hvalues, htime⟩
    refine ⟨hvalues, fun lo hlo segMin segMax hmin hmax => ?_,
      fun hi hhi segMin segMax hmin hmax => ?_⟩
    · exact (htime segMin segMax hmin hmax).1 lo hlo
    · exact (htime segMin segMax hmin hmax).2 hi hhi
  · intro h
    refine ⟨h.segmentBy, fun segMin segMax hmin hmax => ⟨fun lo hlo => ?_, fun hi hhi => ?_⟩⟩
    · exact h.timeMin lo hlo segMin segMax hmin hmax
    · exact h.timeMax hi hhi segMin segMax hmin hmax

/-- The three executors keep a segment that passes every filter, and the loader and the
append scan keep no other. -/
theorem survives_iff (seg : SegmentMeta) (filters : SegmentFilters) :
    Survives seg filters ↔ AdmitsAll seg filters := by
  obtain ⟨bySegment, timeMin, timeMax⟩ := filters
  constructor
  · intro h
    exact (loads_iff _ _).mp h.load
  · intro h
    have hskip := (segmentBySkips_eq_false_iff seg bySegment).mpr h.segmentBy
    refine ⟨(loads_iff _ _).mpr h, ?_, ?_⟩
    · rw [segmentPrePrunedByMetadata, hskip, Option.map_some, Bool.false_or, Option.some.injEq,
        timeRangeSkips_eq_false_iff]
      intro segMin segMax hmin hmax
      refine ⟨fun qmin hq => h.timeMin qmin hq segMin segMax hmin hmax, fun qmax hq => ?_⟩
      exact decide_eq_false (not_le.mpr (h.timeMax qmax hq segMin segMax hmin hmax))
    · rw [workerSkips, hskip, Option.map_some, Bool.false_or, Option.some.injEq,
        timeRangeSkips_eq_false_iff]
      intro segMin segMax hmin hmax
      refine ⟨fun qmin hq => h.timeMin qmin hq segMin segMax hmin hmax, fun qmax hq => ?_⟩
      exact decide_eq_false (not_lt.mpr (h.timeMax qmax hq segMin segMax hmin hmax).le)

/-- A segment survives a conjunction when it passes the filters of every clause. -/
theorem survives_extract_iff (constOut : ConstNode → Text) (cols : ParentColumnLayout)
    (s : Settings) (seg : SegmentMeta) (quals : List QualNode) :
    Survives seg (extractSegmentFilters constOut cols s quals) ↔
      ∀ node ∈ quals, ∀ f ∈ nodeFilters constOut cols s node, f.Admits seg := by
  have hnone : AdmitsAll seg ([], none, none) := ⟨by simp, by simp, by simp⟩
  rw [survives_iff, extractSegmentFilters, admitsAll_foldl]
  simp only [hnone, true_and, List.forall_mem_flatMap]

/-! ## Segments of a table -/

section rows

variable {t : Table} (s : Settings) (out : TypeOid → ElemValue → Text)
  (constOut : ConstNode → Text)

def segmentValuesOf (row : Row t) : List (Option Text) :=
  ((liveAttrs t.attrs).filter s.isSegmentBy).map fun a =>
    (row.cell a.attnum).map (out a.dataType.typeOid)

def timeWord (row : Row t) : Option ℤ :=
  ((liveAttrs t.attrs).find? fun a => decide (a.name = s.timeColumn)).bind fun a =>
    (row.cell a.attnum).bind fun v => v.asDatum.map BitVec.toInt

/-- A row of a range partition: its time is neither NULL nor infinite. -/
def Timed (row : Row t) : Prop := ∃ w, timeWord s row = some w ∧ w < 9223372036854775807

variable (t) in
/-- A segment with its rows: these have its segment-by values, and times within its
bounds. -/
structure StoredSegment extends SegmentMeta where
  rows : List (Row t)
  segmentValues_eq : ∀ row ∈ rows, segmentValuesOf s out row = segmentValues
  timed : ∀ row ∈ rows, Timed s row
  bounds : ∀ segMin segMax, minTime = some segMin → maxTime = some segMax →
    ∀ row ∈ rows, ∀ w, timeWord s row = some w → segMin ≤ w ∧ w ≤ segMax

/-- No segment with a row that satisfies the conjunction is skipped. -/
def KeepsMatching (o : Outside t) (quals : List QualNode) : Prop :=
  ∀ seg : StoredSegment t s out,
    (∃ row ∈ seg.rows, ∀ node ∈ quals, node.eval o row = some true) →
      Survives seg.toSegmentMeta
        (extractSegmentFilters constOut (loadParentColumns t.attrs) s quals)

/-! ## What is read of a row -/

def OpName.wordHolds (op : OpName) (w c : ℤ) : Prop :=
  match op with
  | .ge => c ≤ w
  | .gt => c < w
  | .lt => w < c
  | .le => w ≤ c
  | _ => True

/-- What the filters of a clause take it to say of a row: that the text of a segment-by
value is the constant's, and that the word of the time column compares with the
constant's, both at the position the clause is given. -/
def HoldsRaw (row : Row t) : QualNode → Prop
  | .opExpr op [arg0, arg1] =>
      match varAndConst arg0 arg1 with
      | some (attno, ⟨ty, some value⟩, varOnLeft) =>
          ∀ ci a, varPosition (loadParentColumns t.attrs) attno = some ci →
            (liveAttrs t.attrs)[ci]? = some a →
              (op = .eq → s.isSegmentBy a = true →
                (row.cell a.attnum).map (out a.dataType.typeOid) =
                  some (constOut ⟨ty, some value⟩)) ∧
              (a.name = s.timeColumn → ∀ w, timeWord s row = some w →
                (if varOnLeft then op else flipOpName op).wordHolds w value.word.toInt)
      | _ => True
  | _ => True

/-- The position of a segment-by column among the segment values. -/
theorem segValIndex_eq (ci : ℕ) :
    segValIndex (loadParentColumns t.attrs) s ci =
      (liveAttrs t.attrs)[ci]?.bind fun a =>
        if s.isSegmentBy a then some (before s.isSegmentBy (liveAttrs t.attrs) ci) else none := by
  have hcomp : (fun name => decide (name ∈ s.segmentBy)) ∘ Attr.name = s.isSegmentBy := rfl
  rw [segValIndex, loadParentColumns, number_map, hcomp, getElem?_number]
  cases (liveAttrs t.attrs)[ci]? with
  | none => rfl
  | some a => simp

theorem getElem?_segmentValuesOf {ci : ℕ} {a : Attr} (ha : (liveAttrs t.attrs)[ci]? = some a)
    (hseg : s.isSegmentBy a = true) (row : Row t) :
    (segmentValuesOf s out row)[before s.isSegmentBy (liveAttrs t.attrs) ci]? =
      some ((row.cell a.attnum).map (out a.dataType.typeOid)) := by
  rw [segmentValuesOf, List.getElem?_map, getElem?_filter_before ha hseg]
  rfl

def rowMeta (row : Row t) (w : ℤ) : SegmentMeta := ⟨segmentValuesOf s out row, some w, some w⟩

theorem reaches_rowMeta (row : Row t) (w lo : ℤ) : (rowMeta s out row w).Reaches lo ↔ lo ≤ w := by
  simp [SegmentMeta.Reaches, rowMeta]

theorem begins_rowMeta (row : Row t) (w hi : ℤ) : (rowMeta s out row w).Begins hi ↔ w < hi := by
  simp [SegmentMeta.Begins, rowMeta]

theorem segmentBy_admit_iff {ci : ℕ} {a : Attr} (ha : (liveAttrs t.attrs)[ci]? = some a)
    (row : Row t) (w : ℤ) (op : OpName) (text : Text) :
    (∀ f ∈ (if op = .eq then
        match segValIndex (loadParentColumns t.attrs) s ci with
        | some sv => [SegmentFilter.segmentBy ci sv text]
        | none => []
        else []), f.Admits (rowMeta s out row w)) ↔
      (op = .eq → s.isSegmentBy a = true →
        (row.cell a.attnum).map (out a.dataType.typeOid) = some text) := by
  rw [segValIndex_eq, ha]
  by_cases hop : op = .eq
  · by_cases hseg : s.isSegmentBy a = true
    · have hget := getElem?_segmentValuesOf s out ha hseg row
      simp [hop, hseg, SegmentFilter.Admits, rowMeta, hget]
    · simp [hop, hseg]
  · simp [hop]

def timeFilters (ci : ℕ) (op : OpName) (c : ℤ) : List SegmentFilter :=
  match op with
  | .ge => [.timeMin ci c]
  | .gt => [.timeMin ci (saturatingSucc c)]
  | .lt => [.timeMax ci c]
  | .le => [.timeMax ci (saturatingSucc c)]
  | _ => []

/-- The half-open interval is the comparison of the words. -/
theorem timeFilters_admit_iff {row : Row t} {w : ℤ} (hlt : w < 9223372036854775807) (ci : ℕ)
    (op : OpName) (c : ℤ) :
    (∀ f ∈ timeFilters ci op c, f.Admits (rowMeta s out row w)) ↔ op.wordHolds w c := by
  have hsucc : saturatingSucc c ≤ w ↔ c < w := by
    unfold saturatingSucc
    omega
  have hsucc' : w < saturatingSucc c ↔ w ≤ c := by
    unfold saturatingSucc
    omega
  cases op <;> simp [timeFilters, SegmentFilter.Admits, reaches_rowMeta, begins_rowMeta,
    OpName.wordHolds, hsucc, hsucc']

/-- The filters of a clause admit a row alone exactly when it holds as they read it. -/
theorem nodeFilters_admit_iff {row : Row t} {w : ℤ} (hw : timeWord s row = some w)
    (hlt : w < 9223372036854775807) (node : QualNode) :
    (∀ f ∈ nodeFilters constOut (loadParentColumns t.attrs) s node,
        f.Admits (rowMeta s out row w)) ↔ HoldsRaw s out constOut row node := by
  unfold nodeFilters
  split
  · rename_i op arg0 arg1
    rw [HoldsRaw]
    rcases varAndConst arg0 arg1 with - | ⟨attno, ⟨ty, - | value⟩, varOnLeft⟩
    · simp
    · simp
    · dsimp only
      cases hpos : varPosition (loadParentColumns t.attrs) attno with
      | none => simp
      | some ci =>
          have hnames : (loadParentColumns t.attrs).names[ci]? =
              (liveAttrs t.attrs)[ci]?.map Attr.name := List.getElem?_map
          have htime : ∀ a, (liveAttrs t.attrs)[ci]? = some a →
              ((∀ f ∈ (if (loadParentColumns t.attrs).names[ci]? = some s.timeColumn then
                  timeFilters ci (if varOnLeft then op else flipOpName op) value.word.toInt else []),
                  f.Admits (rowMeta s out row w)) ↔
                (a.name = s.timeColumn → ∀ w, timeWord s row = some w →
                  (if varOnLeft then op else flipOpName op).wordHolds w value.word.toInt)) := by
            intro a ha
            rw [hnames, ha]
            by_cases hname : a.name = s.timeColumn
            · simp [hname, hw, timeFilters_admit_iff s out hlt]
            · simp [hname]
          rw [List.forall_mem_append]
          constructor
          · rintro ⟨hseg, hbound⟩ ci' a hci ha
            obtain rfl := Option.some.inj hci
            exact ⟨(segmentBy_admit_iff s out ha row w op _).mp hseg, (htime a ha).mp hbound⟩
          · intro h
            cases ha : (liveAttrs t.attrs)[ci]? with
            | none => simp [hnames, segValIndex_eq, ha]
            | some a =>
                obtain ⟨hseg, hbound⟩ := h ci a rfl ha
                exact ⟨(segmentBy_admit_iff s out ha row w op _).mpr hseg, (htime a ha).mpr hbound⟩
  · rename_i hother
    rw [HoldsRaw]
    · simp
    · exact hother

/-- A segment with a matching row survives for every segment exactly when every row that
satisfies the conjunction satisfies it as the filters read it. -/
theorem keepsMatching_iff (o : Outside t) (quals : List QualNode) :
    KeepsMatching s out constOut o quals ↔
      ∀ row : Row t, Timed s row → (∀ node ∈ quals, node.eval o row = some true) →
        ∀ node ∈ quals, HoldsRaw s out constOut row node := by
  constructor
  · intro h row ⟨w, hw, hlt⟩ hsat node hnode
    let seg : StoredSegment t s out :=
      { rowMeta s out row w with
        rows := [row]
        segmentValues_eq := fun row' hrow => by rw [List.mem_singleton.mp hrow]; rfl
        timed := fun row' hrow => by rw [List.mem_singleton.mp hrow]; exact ⟨w, hw, hlt⟩
        bounds := fun segMin segMax hmin hmax row' hrow w' hw' => by
          rw [List.mem_singleton.mp hrow, hw, Option.some.injEq] at hw'
          have hmin : w = segMin := Option.some.inj hmin
          have hmax : w = segMax := Option.some.inj hmax
          omega }
    have hsurvives := h seg ⟨row, List.mem_singleton_self row, hsat⟩
    rw [survives_extract_iff] at hsurvives
    exact (nodeFilters_admit_iff s out constOut hw hlt node).mp (hsurvives node hnode)
  · intro h seg ⟨row, hrow, hsat⟩
    obtain ⟨w, hw, hlt⟩ := seg.timed row hrow
    rw [survives_extract_iff]
    intro node hnode f hf
    have hreach := (nodeFilters_admit_iff s out constOut hw hlt node).mpr
      (h row ⟨w, hw, hlt⟩ hsat node hnode) f hf
    cases f with
    | segmentBy ci sv value =>
        have hvalues := seg.segmentValues_eq row hrow
        rw [SegmentFilter.Admits, rowMeta, hvalues] at hreach
        exact hreach
    | timeMin ci lo =>
        intro segMin segMax hmin hmax
        have hbounds := seg.bounds segMin segMax hmin hmax row hrow w hw
        exact ((reaches_rowMeta s out row w lo).mp hreach).trans hbounds.2
    | timeMax ci hi =>
        intro segMin segMax hmin hmax
        have hbounds := seg.bounds segMin segMax hmin hmax row hrow w hw
        exact hbounds.1.trans_lt ((begins_rowMeta s out row w hi).mp hreach)

end rows

/-! ## Clauses that are read right -/

section readRight

variable {t : Table} {s : Settings} {out : TypeOid → ElemValue → Text}
  {constOut : ConstNode → Text} (o : Outside t)

def columnComparison (op : OpName) (attno : ℤ) (ty : TypeOid) (c : ConstNode) (varOnLeft : Bool) :
    QualNode :=
  .opExpr op (if varOnLeft then [.var attno ty, .const c] else [.const c, .var attno ty])

theorem timeWord_of_name {a : Attr} (ha : a ∈ liveAttrs t.attrs) (hname : a.name = s.timeColumn)
    (row : Row t) :
    timeWord s row = (row.cell a.attnum).bind fun v => v.asDatum.map BitVec.toInt := by
  have hfind : (liveAttrs t.attrs).find? (fun b => decide (b.name = s.timeColumn)) = some a := by
    have hsome : ((liveAttrs t.attrs).find? fun b => decide (b.name = s.timeColumn)).isSome :=
      List.find?_isSome.mpr ⟨a, ha, decide_eq_true hname⟩
    obtain ⟨b, hb⟩ := Option.isSome_iff_exists.mp hsome
    have hbname : b.name = s.timeColumn := by simpa using List.find?_some hb
    rw [hb, List.inj_on_of_nodup_map t.names_nodup (List.mem_of_find?_eq_some hb) ha
      (hbname.trans hname.symm)]
  rw [timeWord, hfind]
  rfl

/-- What PostgreSQL says of two timestamps is what their words say. -/
theorem wordHolds_of_sqlOperator {ty : TypeOid} (hty : ty = .timestamp ∨ ty = .timestamptz)
    {op : OpName} {d c : Datum} (h : sqlOperator o op ty ty (.datum d) (.datum c) = some true) :
    op.wordHolds d.toInt c.toInt ∧ (flipOpName op).wordHolds c.toInt d.toInt := by
  have hkeys : sameKeys ty ty = true := by
    rcases hty with rfl | rfl <;> rfl
  have hkey : ∀ d : Datum, sqlKey ty d = ((d.toInt : ℤ) : WithTop ℤ) := by
    intro d
    rcases hty with rfl | rfl <;> rfl
  rcases hop : op.comparison with - | cmp
  · cases op <;> first | exact ⟨trivial, trivial⟩ | cases hop
  · rw [sqlOperator_datum o hop hkeys, Option.some.injEq, decide_eq_true_eq, hkey, hkey] at h
    cases op <;> cases hop <;> simp_all [OpName.wordHolds, flipOpName, Comparison.Holds]

/-- A timestamp column and a constant of its own type are read right. -/
theorem holdsRaw_of_timestamp {ty : TypeOid} (hty : ty = .timestamp ∨ ty = .timestamptz)
    {attno : ℤ} (hcol : IsColumn t attno ty) (hhole : NoHole t attno)
    (hseg : ∀ a ∈ liveAttrs t.attrs, (a.attnum : ℤ) = attno → s.isSegmentBy a = false)
    {op : OpName} {c : Datum} {varOnLeft : Bool} {row : Row t}
    (h : (columnComparison op attno ty ⟨ty, some (.datum c)⟩ varOnLeft).eval o row = some true) :
    HoldsRaw s out constOut row
      (columnComparison op attno ty ⟨ty, some (.datum c)⟩ varOnLeft) := by
  have hword : ∃ d, row.cell attno = some (.datum d) ∧
      (if varOnLeft then op else flipOpName op).wordHolds d.toInt c.toInt := by
    cases hv : row.cell attno with
    | none => cases varOnLeft <;> simp [columnComparison, QualNode.eval, Operand.value, hv, sqlApply] at h
    | some v =>
        have hdatum : ∃ d, v = .datum d := by
          have htyped := hcol.typed row hv
          cases v with
          | datum d => exact ⟨d, rfl⟩
          | text text =>
              have hno : isTextType ty = false := by
                rcases hty with rfl | rfl <;> rfl
              exact absurd htyped (by rw [ElemValue.HasType, hno]; decide)
        obtain ⟨d, rfl⟩ := hdatum
        refine ⟨d, rfl, ?_⟩
        cases varOnLeft with
        | true =>
            have happly : sqlOperator o op ty ty (.datum d) (.datum c) = some true := by
              simpa [columnComparison, QualNode.eval, Operand.value, Operand.typeOid, hv, sqlApply,
                ConstValue.elem] using h
            exact (wordHolds_of_sqlOperator o hty happly).1
        | false =>
            have happly : sqlOperator o op ty ty (.datum c) (.datum d) = some true := by
              simpa [columnComparison, QualNode.eval, Operand.value, Operand.typeOid, hv, sqlApply,
                ConstValue.elem] using h
            exact (wordHolds_of_sqlOperator o hty happly).2
  obtain ⟨d, hcell, hholds⟩ := hword
  have hargs : ∃ arg0 arg1, columnComparison op attno ty ⟨ty, some (.datum c)⟩ varOnLeft =
      .opExpr op [arg0, arg1] ∧
        varAndConst arg0 arg1 = some (attno, ⟨ty, some (.datum c)⟩, varOnLeft) := by
    cases varOnLeft
    · exact ⟨_, _, rfl, rfl⟩
    · exact ⟨_, _, rfl, rfl⟩
  obtain ⟨arg0, arg1, hnode, hfound⟩ := hargs
  rw [hnode, HoldsRaw, hfound]
  obtain ⟨x, hx, rfl, -⟩ := hcol
  intro ci a hpos ha
  have hci : ci = x.attnum - 1 := by
    unfold varPosition at hpos
    split_ifs at hpos
    have := Option.some.inj hpos
    omega
  rw [hci, getElem?_live_pred hx hhole, Option.some.injEq] at ha
  subst ha
  constructor
  · intro _ hisseg
    rw [hseg x hx rfl] at hisseg
    cases hisseg
  · intro hname w hw
    rw [timeWord_of_name hx hname, hcell] at hw
    rw [← Option.some.inj hw]
    exact hholds

end readRight

/-! ## Equal values with another text -/

/-- A numeric by its digits and its scale, in the lowest four bits. -/
def numericText (d : Datum) : Text :=
  let digits := Nat.toDigits 10 (d.toNat / 16)
  digits.take (digits.length - d.toNat % 16) ++ '.' :: digits.drop (digits.length - d.toNat % 16)

def numericEq (a b : Datum) : Bool :=
  a.toNat / 16 * 10 ^ (b.toNat % 16) == b.toNat / 16 * 10 ^ (a.toNat % 16)

/-- `(ts timestamp, price numeric)`, segmented by the price. -/
def priceTable : Table where
  attrs := [⟨1, "ts".toList, .timestamp, -1, false, none⟩,
    ⟨2, "price".toList, .numeric, -1, false, none⟩]
  attnum_eq := rfl
  names_nodup := by decide

def priceSettings : Settings := ⟨"ts".toList, ["price".toList], []⟩

/-- Numerics are equal by value; a timestamp compares with a date as with its midnight. -/
def priceOutside : Outside priceTable where
  operand := fun _ => none
  node := fun _ => none
  operator := fun op lt rt l r =>
    match op, lt, rt, l, r with
    | .eq, .other 1700, .other 1700, .datum a, .datum b => some (numericEq a b)
    | .lt, .timestamp, .date, .datum a, .datum b =>
        some (decide (a.toInt < (b.setWidth 32).toInt * 86400000000))
    | _, _, _, _, _ => none

def priceOut (_ : TypeOid) : ElemValue → Text
  | .datum d => numericText d
  | .text s => s

def priceConstOut (c : ConstNode) : Text :=
  match c.value with
  | some (.datum d) => numericText d
  | _ => []

def priceRow : Row priceTable where
  cell attno := if attno = 1 then some (.datum 757418400000000)
    else if attno = 2 then some (.datum 241) else none
  typed := by
    have htypes : ∀ a ∈ liveAttrs priceTable.attrs, isTextType a.dataType.typeOid = false := by
      decide
    intro a ha v hv
    split_ifs at hv <;> obtain rfl := Option.some.inj hv <;> exact htypes a ha

def priceSegment : StoredSegment priceTable priceSettings priceOut where
  segmentValues := [some "1.5".toList]
  minTime := some 757418400000000
  maxTime := some 757418400000000
  rows := [priceRow]
  segmentValues_eq := by
    intro row hrow
    rw [List.mem_singleton.mp hrow]
    decide
  timed := by
    intro row hrow
    rw [List.mem_singleton.mp hrow]
    exact ⟨757418400000000, by decide, by decide⟩
  bounds := by
    intro segMin segMax hmin hmax row hrow w hw
    have hword : timeWord priceSettings priceRow = some 757418400000000 := by decide
    rw [List.mem_singleton.mp hrow, hword, Option.some.injEq] at hw
    rw [Option.some.injEq] at hmin hmax
    omega

/-- `price = 1.50`. -/
def priceQuals : List QualNode :=
  [.opExpr .eq [.var 2 (.other 1700), .const ⟨.other 1700, some (.datum 2402)⟩]]

/-- The segment of price 1.5 has the row, and is skipped. -/
theorem not_keepsMatching_equal_numeric :
    ¬ KeepsMatching priceSettings priceOut priceConstOut priceOutside priceQuals := by
  intro h
  have hkept := h priceSegment ⟨priceRow, List.mem_singleton_self _, by decide⟩
  exact absurd hkept.load (by decide)

/-- `ts < DATE '2024-01-02'`: the word of the date is a number of days. -/
theorem not_keepsMatching_date :
    ¬ KeepsMatching priceSettings priceOut priceConstOut priceOutside
      [.opExpr .lt [.var 1 .timestamp, .const ⟨.date, some (.datum 8767)⟩]] := by
  intro h
  have hkept := h priceSegment ⟨priceRow, List.mem_singleton_self _, by decide⟩
  exact absurd hkept.load (by decide)

end DeltaX.Scan
