import DeltaX.Schema.Resolution
/-!
# Full decompression after column changes

`restore_segment_rows` reads the blobs of a segment by the position of a column
among the live ones and inserts what it reads as text literals; the scan reads
them by the index in the descriptor.  The two give the same rows when no dropped
column precedes a surviving one, every literal comes back, and what lies at the
position of an added column holds its default.
-/

namespace DeltaX.Schema

open Column Support.Numbering Support.ListLookup

/-! ## Segments and their rows -/

/-- A column of a segment as it was encoded: the type it was written under and
its values. -/
structure Blob (pg : InsertInput) where
  dataType : DataType
  values : List (Option Cell)
  typed : ∀ c, some c ∈ values → c.OfType pg dataType

abbrev Row : Type := List (Text × Value)

/-- A segment written with a blob for each of `columns`, by `_col_idx`.  Blobs of
extracted fields may follow. -/
structure Segment (pg : InsertInput) (columns : List Attr) where
  rowCount : ℕ
  segmentByVal : Text → Value
  blobs : List (Blob pg)
  tombstones : List ℕ
  blobs_written : ∀ (w : ℕ) (a : Attr), columns[w]? = some a →
    ∃ blob, blobs[w]? = some blob ∧ blob.dataType = a.dataType ∧ blob.values.length = rowCount

def Segment.liveOffsets {pg : InsertInput} {columns : List Attr} (seg : Segment pg columns) :
    List ℕ :=
  (List.range seg.rowCount).filter fun off => decide (off ∉ seg.tombstones)

section Decoding

variable {pg : InsertInput}

-- what the two paths make of a blob under another type than its own; `none` is a panic
variable (foreignTexts : DataType → Blob pg → Option (List (Option Text)))
  (foreignValues : DataType → Blob pg → Option (List Value))

def decompressColumnValues (dataType : DataType) : Option (Blob pg) → Option (List (Option Text))
  | none => some []
  | some blob =>
      if blob.dataType = dataType then
        some (blob.values.map (Option.map (Cell.decompressed dataType)))
      else foreignTexts dataType blob

def decodeColumnValues (dataType : DataType) : Option (Blob pg) → Option (List Value)
  | none => some []
  | some blob =>
      if blob.dataType = dataType then some (blob.values.map (Option.map (Cell.decode dataType)))
      else foreignValues dataType blob

variable {columns : List Attr}

/-- `restore_segment_rows`.  A row index past the end of a column panics, a literal that
PostgreSQL rejects fails the statement. -/
def restoreSegmentRows (s : Settings) (live : List Attr) (cols : List (ℕ × Text × DataType))
    (seg : Segment pg columns) : Option (List Row) := do
  let segmentCols := (live.filter s.isSegmentBy).map fun a =>
    (a.name,
      List.replicate seg.rowCount ((seg.segmentByVal a.name).map (pg.castText a.dataType)))
  let decompressedCols ← cols.mapM fun c =>
    (decompressColumnValues foreignTexts c.2.2 seg.blobs[c.1]?).map fun values => (c.2.1, values)
  let orderedCols := live.filterMap fun a =>
    (segmentCols ++ decompressedCols).find? fun c => decide (c.1 = a.name)
  seg.liveOffsets.mapM fun off =>
    (orderedCols.zip live).mapM fun c =>
      (c.1.2[off]?.bind (insertText pg c.2.dataType)).map fun value => (c.1.1, value)

def decompressPartitionInner (s : Settings) (st : TableState)
    (segments : List (Segment pg columns)) : Option (List Row) := do
  let rows ← (segments.filter fun seg => decide (seg.rowCount ≠ 0)).mapM
    (restoreSegmentRows foreignTexts s (liveAttrs st.attrs) (nonSegCols s st))
  pure rows.flatten

def scanValue (s : Settings) (seg : Segment pg columns) (a : Attr) (blobIdx : Option ℕ)
    (off : ℕ) : Option Value :=
  if s.isSegmentBy a then some (seg.segmentByVal a.name)
  else match blobIdx with
    | none => some a.missing
    | some w => (decodeColumnValues foreignValues a.dataType seg.blobs[w]?).bind (·[off]?)

/-- The live rows of one segment under `blob_idx`. -/
def scanSegment (s : Settings) (live : List Attr) (blobIdx : List (Option ℕ))
    (seg : Segment pg columns) : Option (List Row) :=
  seg.liveOffsets.mapM fun off =>
    (live.zip blobIdx).mapM fun c =>
      (scanValue foreignValues s seg c.1 c.2 off).map fun value => (c.1.name, value)

/-- The rows of the compressed part as a scan resolves them. -/
def scanPartition (s : Settings) (st : TableState) (segments : List (Segment pg columns)) :
    Option (List Row) := do
  let blobIdx ← (loadBlobIdx st).toOption
  let rows ← segments.mapM (scanSegment foreignValues s (liveAttrs st.attrs) blobIdx)
  pure rows.flatten

/-! ## Agreement -/

/-- Full decompression reads every surviving column under the index it was
written under, and inserts the rows a scan returns. -/
def DecompressionAgrees (s : Settings) (t : Table) (st : TableState)
    (segments : List (Segment pg (t.written s))) : Prop :=
  (∀ (w : ℕ) (a : Attr), (t.written s)[w]? = some a →
    ∀ b ∈ liveAttrs st.attrs, b.attnum = a.attnum →
      (w, b.name, b.dataType) ∈ nonSegCols s st) ∧
  ∃ restored scanned, decompressPartitionInner foreignTexts s st segments = some restored ∧
    scanPartition foreignValues s st segments = some scanned ∧ restored.Perm scanned

/-- A blob of the type of an added column, with the column's default at an offset. -/
def Blob.HoldsDefault (blob : Blob pg) (a : Attr) (off : ℕ) : Prop :=
  ∃ cell, blob.values[off]? = some cell ∧ cell.map (Cell.decode a.dataType) = a.missing ∧
    ∀ c, cell = some c → c.ComesBack pg a.dataType

/-- The blob at the place of an added column is of the column's type, and in every live
row it holds the column's default.  Without live rows there may be no blob. -/
def AddedHoldDefault (s : Settings) (st : TableState) (segments : List (Segment pg columns)) :
    Prop :=
  ∀ seg ∈ segments, seg.rowCount ≠ 0 → ∀ (p : ℕ) (a : Attr), (storedLive s st)[p]? = some a →
    (∀ e ∈ st.descriptor, e.attnum ≠ a.attnum) →
      (∀ blob, seg.blobs[p]? = some blob → blob.dataType = a.dataType) ∧
        ∀ off ∈ seg.liveOffsets, ∃ blob, seg.blobs[p]? = some blob ∧ blob.HoldsDefault a off

def LiteralsComeBack (s : Settings) (st : TableState) (segments : List (Segment pg columns)) :
    Prop :=
  ∀ seg ∈ segments, ∀ a ∈ liveAttrs st.attrs, ∀ off ∈ seg.liveOffsets,
    (s.isSegmentBy a = true →
      ∀ v, seg.segmentByVal a.name = some v → SegmentValueComesBack pg a.dataType v) ∧
    (s.isSegmentBy a = false → ∀ w, blobOf st.descriptor a = some w →
      ∀ blob, seg.blobs[w]? = some blob → ∀ c, blob.values[off]? = some (some c) →
        c.ComesBack pg a.dataType)

/-! ## What a scan returns -/

variable {t : Table} {s : Settings} {st : TableState} {old added : List Attr}

theorem mem_liveOffsets {seg : Segment pg columns} {off : ℕ} (hoff : off ∈ seg.liveOffsets) :
    off < seg.rowCount :=
  List.mem_range.mp (List.mem_filter.mp hoff).1

def scannedRow (s : Settings) (st : TableState) (seg : Segment pg columns) (off : ℕ) : Row :=
  (liveAttrs st.attrs).map fun a =>
    (a.name, (scanValue foreignValues s seg a (blobOf st.descriptor a) off).getD none)

def restoredTexts (s : Settings) (st : TableState) (seg : Segment pg columns) (a : Attr) :
    Option (List (Option Text)) :=
  if s.isSegmentBy a then
    some (List.replicate seg.rowCount ((seg.segmentByVal a.name).map (pg.castText a.dataType)))
  else decompressColumnValues foreignTexts a.dataType seg.blobs[(storedLive s st).idxOf a]?

theorem isSegmentBy_of_stored {a : Attr} (ha : a ∈ storedLive s st) : s.isSegmentBy a = false := by
  simpa [Settings.stored] using (List.mem_filter.mp ha).2

namespace DriftsTo

theorem survivor_blob (h : DriftsTo t s st old added) (seg : Segment pg (t.written s)) {w : ℕ}
    {p : Attr × Attr} (hw : (writtenPairs s t.attrs old)[w]? = some p) :
    ∃ blob, seg.blobs[w]? = some blob ∧ blob.dataType = p.2.dataType ∧
      blob.values.length = seg.rowCount := by
  have hwritten : (t.written s)[w]? = some p.1 := by
    rw [h.written_eq, List.getElem?_map, hw]
    rfl
  obtain ⟨blob, hblob, htype, hlength⟩ := seg.blobs_written w p.1 hwritten
  have hsame := (h.same p (mem_writtenPairs.mp (List.mem_of_getElem? hw)).1).dataType_eq
  exact ⟨blob, hblob, htype.trans hsame.symm, hlength⟩

theorem scanValue_eq_some (h : DriftsTo t s st old added) (seg : Segment pg (t.written s))
    {a : Attr} (ha : a ∈ liveAttrs st.attrs) {off : ℕ} (hoff : off < seg.rowCount) :
    ∃ value, scanValue foreignValues s seg a (blobOf st.descriptor a) off = some value := by
  unfold scanValue
  split
  · exact ⟨_, rfl⟩
  · cases hblob : blobOf st.descriptor a with
    | none => exact ⟨_, rfl⟩
    | some w =>
        obtain ⟨p, hw, rfl⟩ := (h.blobOf_eq_some_iff ha w).mp hblob
        obtain ⟨blob, hblob, htype, hlength⟩ := h.survivor_blob seg hw
        have hlt : off < blob.values.length := hlength ▸ hoff
        refine ⟨blob.values[off].map (Cell.decode p.2.dataType), ?_⟩
        simp only [hblob, decodeColumnValues, if_pos htype, Option.bind_some, List.getElem?_map,
          List.getElem?_eq_getElem hlt, Option.map_some]

theorem scanPartition_eq (h : DriftsTo t s st old added)
    (segments : List (Segment pg (t.written s))) :
    scanPartition foreignValues s st segments =
      some (segments.flatMap fun seg =>
        seg.liveOffsets.map (scannedRow foreignValues s st seg)) := by
  have hsegment : ∀ seg ∈ segments,
      scanSegment foreignValues s (liveAttrs st.attrs)
          ((liveAttrs st.attrs).map (blobOf st.descriptor)) seg =
        pure (seg.liveOffsets.map (scannedRow foreignValues s st seg)) := by
    intro seg _
    apply mapM_eq_pure
    intro off hoff
    have hzip : (liveAttrs st.attrs).zip ((liveAttrs st.attrs).map (blobOf st.descriptor)) =
        (liveAttrs st.attrs).map fun a => (a, blobOf st.descriptor a) := by
      simpa using List.zip_map' (f := id) (g := blobOf st.descriptor) (l := liveAttrs st.attrs)
    rw [hzip, List.mapM_map]
    apply mapM_eq_pure
    intro a ha
    obtain ⟨value, hvalue⟩ := h.scanValue_eq_some foreignValues seg ha (mem_liveOffsets hoff)
    simp only [Function.comp, hvalue, Option.map_some, Option.getD_some]
    rfl
  rw [scanPartition, h.loadBlobIdx_eq]
  simp only [Except.toOption, Option.bind_eq_bind, Option.bind_some]
  rw [mapM_eq_pure hsegment]
  rfl

theorem nonSegCols_eq (h : DriftsTo t s st old added) :
    nonSegCols s st =
      (storedLive s st).map fun a => ((storedLive s st).idxOf a, a.name, a.dataType) :=
  mapIdx_eq_map_idxOf (List.Nodup.of_map _ h.nodup_storedLive) _

/-- A column is found under its own name. -/
theorem find?_orderedCol (h : DriftsTo t s st old added) (dec : Attr → List (Option Text))
    {a : Attr} (ha : a ∈ liveAttrs st.attrs) :
    (((liveAttrs st.attrs).filter s.isSegmentBy ++ storedLive s st).map fun b =>
        (b.name, dec b)).find? (fun c => decide (c.1 = a.name)) = some (a.name, dec a) := by
  have hperm : ((liveAttrs st.attrs).filter s.isSegmentBy ++ storedLive s st).Perm
      (liveAttrs st.attrs) := List.filter_append_perm _ _
  refine find?_key Prod.fst (x := (a.name, dec a)) ?_ ?_
  · rw [List.map_map]
    exact (hperm.map Attr.name).nodup_iff.mpr h.names_nodup
  · exact List.mem_map.mpr ⟨a, hperm.mem_iff.mpr ha, rfl⟩

theorem restoreSegmentRows_eq (h : DriftsTo t s st old added) (seg : Segment pg columns)
    {dec : Attr → List (Option Text)}
    (hdec : ∀ a ∈ liveAttrs st.attrs, restoredTexts foreignTexts s st seg a = some (dec a)) :
    restoreSegmentRows foreignTexts s (liveAttrs st.attrs) (nonSegCols s st) seg =
      seg.liveOffsets.mapM fun off =>
        (liveAttrs st.attrs).mapM fun a =>
          ((dec a)[off]?.bind (insertText pg a.dataType)).map fun value => (a.name, value) := by
  have hsegment : ((liveAttrs st.attrs).filter s.isSegmentBy).map (fun a =>
        (a.name,
          List.replicate seg.rowCount ((seg.segmentByVal a.name).map (pg.castText a.dataType)))) =
      ((liveAttrs st.attrs).filter s.isSegmentBy).map fun a => (a.name, dec a) := by
    apply List.map_congr_left
    intro a ha
    obtain ⟨hlive, hseg⟩ := List.mem_filter.mp ha
    have := hdec a hlive
    rw [restoredTexts, if_pos hseg, Option.some.injEq] at this
    rw [this]
  have hstored : (nonSegCols s st).mapM (fun c =>
        (decompressColumnValues foreignTexts c.2.2 seg.blobs[c.1]?).map fun values =>
          (c.2.1, values)) = some ((storedLive s st).map fun a => (a.name, dec a)) := by
    rw [h.nonSegCols_eq, List.mapM_map]
    apply mapM_eq_pure
    intro a ha
    have := hdec a (List.mem_filter.mp ha).1
    rw [restoredTexts, if_neg (by simp [isSegmentBy_of_stored ha])] at this
    simp only [Function.comp, this, Option.map_some]
    rfl
  have hordered : (liveAttrs st.attrs).filterMap (fun a =>
      (((liveAttrs st.attrs).filter s.isSegmentBy).map (fun a => (a.name, dec a)) ++
        (storedLive s st).map fun a => (a.name, dec a)).find? fun c => decide (c.1 = a.name)) =
      (liveAttrs st.attrs).map fun a => (a.name, dec a) := by
    rw [← List.map_append]
    conv_rhs => rw [← List.filterMap_eq_map]
    exact List.filterMap_congr fun a ha => h.find?_orderedCol dec ha
  have hzip : ((liveAttrs st.attrs).map fun a => (a.name, dec a)).zip (liveAttrs st.attrs) =
      (liveAttrs st.attrs).map fun a => ((a.name, dec a), a) := by
    simpa using List.zip_map' (f := fun a : Attr => (a.name, dec a)) (g := id)
      (l := liveAttrs st.attrs)
  rw [restoreSegmentRows, hstored]
  simp only [Option.bind_eq_bind, Option.bind_some, hsegment, hordered, hzip, List.mapM_map]
  rfl

theorem restoredTexts_of_restored (h : DriftsTo t s st old added) {seg : Segment pg columns}
    {rows : List Row}
    (hrestored : restoreSegmentRows foreignTexts s (liveAttrs st.attrs) (nonSegCols s st) seg =
      some rows) :
    ∃ dec : Attr → List (Option Text),
      ∀ a ∈ liveAttrs st.attrs, restoredTexts foreignTexts s st seg a = some (dec a) := by
  refine ⟨fun a => (restoredTexts foreignTexts s st seg a).getD [], ?_⟩
  intro a ha
  suffices hsome : ∃ values, restoredTexts foreignTexts s st seg a = some values by
    obtain ⟨values, hvalues⟩ := hsome
    simp [hvalues]
  unfold restoredTexts
  split
  · exact ⟨_, rfl⟩
  · rename_i hseg
    obtain ⟨cols, hcols, -⟩ := Option.bind_eq_some_iff.mp hrestored
    have hstored : a ∈ storedLive s st :=
      List.mem_filter.mpr ⟨ha, by simpa [Settings.stored] using hseg⟩
    have hmem : ((storedLive s st).idxOf a, a.name, a.dataType) ∈ nonSegCols s st := by
      rw [h.nonSegCols_eq]
      exact List.mem_map.mpr ⟨a, hstored, rfl⟩
    obtain ⟨col, -, hcol⟩ := exists_of_mapM hcols hmem
    obtain ⟨values, hvalues, -⟩ := Option.map_eq_some_iff.mp hcol
    exact ⟨values, hvalues⟩

theorem idxOf_storedLive (h : DriftsTo t s st old added) {w : ℕ} {a : Attr}
    (hw : (storedLive s st)[w]? = some a) : (storedLive s st).idxOf a = w := by
  obtain ⟨hlt, rfl⟩ := List.getElem?_eq_some_iff.mp hw
  exact (List.Nodup.of_map _ h.nodup_storedLive).idxOf_getElem w hlt

theorem blobOf_of_not_described {a : Attr} (hnot : ∀ e ∈ st.descriptor, e.attnum ≠ a.attnum) :
    blobOf st.descriptor a = none := by
  have hfind : (st.descriptor.find? fun e => e.attnum = a.attnum) = none := by
    rw [List.find?_eq_none]
    intro e he
    simpa using hnot e he
  rw [blobOf, resolveBlob, hfind]

/-- A stored column without an index was added later. -/
theorem not_described_of_blobOf (h : DriftsTo t s st old added) {a : Attr}
    (ha : a ∈ storedLive s st) (hblob : blobOf st.descriptor a = none) :
    ∀ e ∈ st.descriptor, e.attnum ≠ a.attnum := by
  obtain ⟨hlive, hstored⟩ := List.mem_filter.mp ha
  rcases h.live_cases hlive with ⟨p, hp, rfl⟩ | hadded
  · obtain ⟨hzip, hdropped⟩ := mem_describedPairs.mp hp
    have hwritten : p ∈ writtenPairs s t.attrs old :=
      mem_writtenPairs.mpr ⟨hzip, hdropped, h.stored_eq hzip ▸ hstored⟩
    obtain ⟨w, hw⟩ := List.mem_iff_getElem?.mp hwritten
    rw [(h.blobOf_eq_some_iff hlive w).mpr ⟨p, hw, rfl⟩] at hblob
    cases hblob
  · exact h.not_described_of_added hadded

/-! ## Restored rows -/

/-- The cells of a blob of the column's type, inserted at an offset. -/
theorem insert_cell {blob : Blob pg} {a : Attr} {off : ℕ} {cell : Option Cell}
    (htype : blob.dataType = a.dataType) (hcell : blob.values[off]? = some cell)
    (hback : ∀ c, cell = some c → c.ComesBack pg a.dataType) :
    (blob.values.map (Option.map (Cell.decompressed a.dataType)))[off]?.bind
        (insertText pg a.dataType) = some (cell.map (Cell.decode a.dataType)) := by
  rw [List.getElem?_map, hcell, Option.map_some, Option.bind_some]
  cases cell with
  | none => rfl
  | some c =>
      have hoftype : c.OfType pg a.dataType := htype ▸ blob.typed c (List.mem_of_getElem? hcell)
      exact insertText_decompressed hoftype (hback c rfl)

/-- Under the conditions a column is restored with the values a scan gives. -/
theorem restoredTexts_agree (h : DriftsTo t s st old added)
    {segments : List (Segment pg (t.written s))} (hplaces : KeepsPlaces st.descriptor)
    (hback : LiteralsComeBack s st segments) (hadded : AddedHoldDefault s st segments)
    {seg : Segment pg (t.written s)} (hseg : seg ∈ segments) (hrows : seg.rowCount ≠ 0)
    {a : Attr} (ha : a ∈ liveAttrs st.attrs) :
    ∃ texts, restoredTexts foreignTexts s st seg a = some texts ∧ ∀ off ∈ seg.liveOffsets,
      texts[off]?.bind (insertText pg a.dataType) =
        scanValue foreignValues s seg a (blobOf st.descriptor a) off := by
  unfold restoredTexts scanValue
  by_cases hsegment : s.isSegmentBy a = true
  · rw [if_pos hsegment]
    refine ⟨_, rfl, ?_⟩
    intro off hoff
    rw [if_pos hsegment, List.getElem?_replicate, if_pos (mem_liveOffsets hoff), Option.bind_some]
    cases hval : seg.segmentByVal a.name with
    | none => rfl
    | some v => exact insertText_segmentValue ((hback seg hseg a ha off hoff).1 hsegment v hval)
  · simp only [if_neg hsegment]
    have hstored : a ∈ storedLive s st :=
      List.mem_filter.mpr ⟨ha, by simpa [Settings.stored] using hsegment⟩
    cases hblob : blobOf st.descriptor a with
    | none =>
        obtain ⟨htypes, hdefaults⟩ := hadded seg hseg hrows _ a (List.getElem?_idxOf hstored)
          (h.not_described_of_blobOf hstored hblob)
        cases hplace : seg.blobs[(storedLive s st).idxOf a]? with
        | none =>
            refine ⟨_, rfl, ?_⟩
            intro off hoff
            obtain ⟨blob, hsome, -⟩ := hdefaults off hoff
            rw [hplace] at hsome
            cases hsome
        | some blob =>
            have htype := htypes blob hplace
            rw [decompressColumnValues, if_pos htype]
            refine ⟨_, rfl, ?_⟩
            intro off hoff
            obtain ⟨blob', hsome, cell, hcell, hdefault, hcomes⟩ := hdefaults off hoff
            obtain rfl : blob = blob' := Option.some.inj (hplace.symm.trans hsome)
            rw [insert_cell htype hcell hcomes, hdefault]
    | some w =>
        obtain ⟨p, hw, rfl⟩ := (h.blobOf_eq_some_iff ha w).mp hblob
        have hlive : p.2.dropped = false := by simpa using (List.mem_filter.mp ha).2
        have hplace := h.idxOf_storedLive (h.keepsPlaces_iff.mp hplaces w p hw hlive)
        obtain ⟨blob, hsome, htype, hlength⟩ := h.survivor_blob seg hw
        simp only [hplace, hsome, decompressColumnValues, decodeColumnValues, if_pos htype]
        refine ⟨_, rfl, ?_⟩
        intro off hoff
        have hlt : off < blob.values.length := hlength ▸ mem_liveOffsets hoff
        have hcell := List.getElem?_eq_getElem hlt
        have hcomes : ∀ c, blob.values[off] = some c → c.ComesBack pg p.2.dataType := by
          intro c hc
          exact (hback seg hseg p.2 ha off hoff).2 (by simpa using hsegment) w hblob blob hsome c
            (hcell.trans (congrArg some hc))
        rw [insert_cell htype hcell hcomes, Option.bind_some, List.getElem?_map, hcell]
        rfl

theorem restoreSegmentRows_eq_scanned (h : DriftsTo t s st old added)
    {segments : List (Segment pg (t.written s))} (hplaces : KeepsPlaces st.descriptor)
    (hback : LiteralsComeBack s st segments) (hadded : AddedHoldDefault s st segments)
    {seg : Segment pg (t.written s)} (hseg : seg ∈ segments) (hrows : seg.rowCount ≠ 0) :
    restoreSegmentRows foreignTexts s (liveAttrs st.attrs) (nonSegCols s st) seg =
      some (seg.liveOffsets.map (scannedRow foreignValues s st seg)) := by
  have hagree := fun a ha => h.restoredTexts_agree foreignTexts foreignValues hplaces hback hadded
    hseg hrows (a := a) ha
  choose! dec hdec hvalues using hagree
  rw [h.restoreSegmentRows_eq foreignTexts seg hdec]
  apply mapM_eq_pure
  intro off hoff
  apply mapM_eq_pure
  intro a ha
  obtain ⟨value, hvalue⟩ := h.scanValue_eq_some foreignValues seg ha (mem_liveOffsets hoff)
  rw [hvalues a ha off hoff, hvalue]
  rfl

theorem decompressPartitionInner_eq_scanned (h : DriftsTo t s st old added)
    {segments : List (Segment pg (t.written s))} (hplaces : KeepsPlaces st.descriptor)
    (hback : LiteralsComeBack s st segments) (hadded : AddedHoldDefault s st segments) :
    decompressPartitionInner foreignTexts s st segments =
      scanPartition foreignValues s st segments := by
  have hrestored : ∀ seg ∈ segments.filter fun seg => decide (seg.rowCount ≠ 0),
      restoreSegmentRows foreignTexts s (liveAttrs st.attrs) (nonSegCols s st) seg =
        pure (seg.liveOffsets.map (scannedRow foreignValues s st seg)) := by
    intro seg hmem
    obtain ⟨hseg, hrows⟩ := List.mem_filter.mp hmem
    exact h.restoreSegmentRows_eq_scanned foreignTexts foreignValues hplaces hback hadded hseg
      (by simpa using hrows)
  rw [decompressPartitionInner, mapM_eq_pure hrestored, h.scanPartition_eq]
  simp only [Option.pure_def, Option.bind_eq_bind, Option.bind_some, ← List.flatMap_def]
  rw [flatMap_filter]
  intro seg _ hempty
  have hzero : seg.rowCount = 0 := by simpa using hempty
  simp [Segment.liveOffsets, hzero]

/-- Restored rows that a scan also returns show the default of an added column, so that
there is a blob at its place. -/
theorem added_blob_of_perm (h : DriftsTo t s st old added)
    {segments : List (Segment pg (t.written s))} {restored scanned : List Row}
    (hrestored : decompressPartitionInner foreignTexts s st segments = some restored)
    (hscanned : scanPartition foreignValues s st segments = some scanned)
    (hperm : restored.Perm scanned) {seg : Segment pg (t.written s)} (hseg : seg ∈ segments)
    {p : ℕ} {a : Attr} (hplace : (storedLive s st)[p]? = some a)
    (hnot : ∀ e ∈ st.descriptor, e.attnum ≠ a.attnum) {off : ℕ} (hoff : off ∈ seg.liveOffsets) :
    ∃ blob, seg.blobs[p]? = some blob ∧ (blob.dataType = a.dataType →
      ∃ cell, blob.values[off]? = some cell ∧
        insertText pg a.dataType (cell.map (Cell.decompressed a.dataType)) = some a.missing) := by
  have hstored := List.mem_of_getElem? hplace
  obtain ⟨hlive, -⟩ := List.mem_filter.mp hstored
  have hsegment : ¬ s.isSegmentBy a = true := by simp [isSegmentBy_of_stored hstored]
  have hrows : seg.rowCount ≠ 0 := Nat.ne_zero_of_lt (mem_liveOffsets hoff)
  obtain ⟨parts, hparts, heq⟩ := Option.bind_eq_some_iff.mp hrestored
  cases heq
  obtain ⟨rows, hmem, hrow⟩ := exists_of_mapM hparts
    (List.mem_filter.mpr ⟨hseg, by simpa using hrows⟩)
  obtain ⟨dec, hdec⟩ := h.restoredTexts_of_restored foreignTexts hrow
  have htexts := hdec a hlive
  rw [restoredTexts, if_neg hsegment, h.idxOf_storedLive hplace] at htexts
  rw [h.restoreSegmentRows_eq foreignTexts seg hdec] at hrow
  obtain ⟨row, hrowmem, hrow⟩ := exists_of_mapM hrow hoff
  obtain ⟨cell, hcellmem, hcell⟩ := exists_of_mapM hrow hlive
  obtain ⟨value, hvalue, rfl⟩ := Option.map_eq_some_iff.mp hcell
  -- the row is one a scan returns, and a scan has the default in this column
  have hrowscan : row ∈ scanned :=
    hperm.mem_iff.mp (List.mem_flatten.mpr ⟨rows, hmem, hrowmem⟩)
  rw [h.scanPartition_eq, Option.some.injEq] at hscanned
  rw [← hscanned] at hrowscan
  obtain ⟨seg', -, hrowscan⟩ := List.mem_flatMap.mp hrowscan
  obtain ⟨off', -, rfl⟩ := List.mem_map.mp hrowscan
  obtain ⟨b, hb, heq⟩ := List.mem_map.mp hcellmem
  obtain ⟨hname, hscan⟩ := Prod.mk.inj heq
  obtain rfl := List.inj_on_of_nodup_map h.names_nodup hb hlive hname
  rw [blobOf_of_not_described hnot, scanValue, if_neg hsegment, Option.getD_some] at hscan
  obtain ⟨text, htext, hinsert⟩ := Option.bind_eq_some_iff.mp hvalue
  cases hblob : seg.blobs[p]? with
  | none =>
      rw [hblob] at htexts
      rw [← Option.some.inj htexts] at htext
      cases htext
  | some blob =>
      refine ⟨blob, rfl, ?_⟩
      intro htype
      rw [hblob, decompressColumnValues, if_pos htype, Option.some.injEq] at htexts
      rw [← htexts, List.getElem?_map] at htext
      obtain ⟨cell, hcell, rfl⟩ := Option.map_eq_some_iff.mp htext
      exact ⟨cell, hcell, hinsert.trans (congrArg some hscan.symm)⟩

/-- The restore side reads the survivors where they were written exactly when they
have kept their places. -/
theorem reads_written_iff (h : DriftsTo t s st old added) :
    (∀ (w : ℕ) (a : Attr), (t.written s)[w]? = some a →
      ∀ b ∈ liveAttrs st.attrs, b.attnum = a.attnum →
        (w, b.name, b.dataType) ∈ nonSegCols s st) ↔ KeepsPlaces st.descriptor := by
  have hcol : ∀ (w : ℕ) (b : Attr), b ∈ liveAttrs st.attrs →
      ((w, b.name, b.dataType) ∈ nonSegCols s st ↔ (storedLive s st)[w]? = some b) := by
    intro w b hb
    rw [nonSegCols, List.mem_mapIdx]
    constructor
    · rintro ⟨i, hi, heq⟩
      obtain ⟨rfl, hrest⟩ := Prod.mk.inj heq
      have hmem : (storedLive s st)[i] ∈ liveAttrs st.attrs :=
        (List.mem_filter.mp (List.getElem_mem hi)).1
      rw [← List.inj_on_of_nodup_map h.names_nodup hmem hb (Prod.mk.inj hrest).1]
      exact List.getElem?_eq_getElem hi
    · intro hw
      obtain ⟨hlt, rfl⟩ := List.getElem?_eq_some_iff.mp hw
      exact ⟨w, hlt, rfl⟩
  rw [h.keepsPlaces_iff, h.written_eq]
  constructor
  · intro hreads w p hw hlive
    obtain ⟨hzip, -, -⟩ := mem_writtenPairs.mp (List.mem_of_getElem? hw)
    have hmem : p.2 ∈ liveAttrs st.attrs := by
      rw [h.attrs_eq, liveAttrs_append]
      refine List.mem_append_left _ (List.mem_filter.mpr ⟨mem_old_of_mem_zip hzip, ?_⟩)
      simp [hlive]
    refine (hcol w p.2 hmem).mp (hreads w p.1 ?_ p.2 hmem (h.same p hzip).attnum_eq)
    rw [List.getElem?_map, hw]
    rfl
  · intro hplaces w a ha b hb hattnum
    rw [List.getElem?_map] at ha
    obtain ⟨p, hw, rfl⟩ := Option.map_eq_some_iff.mp ha
    obtain ⟨hzip, -, -⟩ := mem_writtenPairs.mp (List.mem_of_getElem? hw)
    have hbp : b = p.2 := by
      refine h.attr_eq_of_attnum (mem_of_mem_live hb) ?_ ?_
      · rw [h.attrs_eq]
        exact List.mem_append_left _ (mem_old_of_mem_zip hzip)
      · rw [hattnum, (h.same p hzip).attnum_eq]
    subst hbp
    have hlive : p.2.dropped = false := by simpa using (List.mem_filter.mp hb).2
    exact (hcol w p.2 hb).mpr (hplaces w p hw hlive)

end DriftsTo

/-- After any history of column changes, full decompression agrees with a scan when no
dropped column precedes a survivor, the blob at the place of an added column holds its
default, and every literal comes back.  When it does, no dropped column precedes a survivor
and there is a blob at the place of an added column; one of the column's own type is
inserted as its default. -/
theorem decompressPartitionInner_agrees {changes : List ColumnChange}
    (hrun : applyChanges s (t.compressed s) changes = some st)
    (segments : List (Segment pg (t.written s))) :
    (KeepsPlaces st.descriptor → AddedHoldDefault s st segments → LiteralsComeBack s st segments →
      DecompressionAgrees foreignTexts foreignValues s t st segments) ∧
    (DecompressionAgrees foreignTexts foreignValues s t st segments →
      KeepsPlaces st.descriptor ∧
        ∀ seg ∈ segments, ∀ (p : ℕ) (a : Attr), (storedLive s st)[p]? = some a →
          (∀ e ∈ st.descriptor, e.attnum ≠ a.attnum) → ∀ off ∈ seg.liveOffsets,
            ∃ blob, seg.blobs[p]? = some blob ∧ (blob.dataType = a.dataType →
              ∃ cell, blob.values[off]? = some cell ∧
                insertText pg a.dataType (cell.map (Cell.decompressed a.dataType)) =
                  some a.missing)) := by
  obtain ⟨old, added, h⟩ := driftsTo_applyChanges (driftsTo_compressed t s) hrun
  constructor
  · intro hplaces hadded hback
    refine ⟨h.reads_written_iff.mpr hplaces, _, _, ?_, h.scanPartition_eq foreignValues segments,
      List.Perm.refl _⟩
    rw [h.decompressPartitionInner_eq_scanned foreignTexts foreignValues hplaces hback hadded]
    exact h.scanPartition_eq foreignValues segments
  · rintro ⟨hreads, restored, scanned, hrestored, hscanned, hperm⟩
    refine ⟨h.reads_written_iff.mp hreads, ?_⟩
    intro seg hseg p a hplace hnot off hoff
    exact h.added_blob_of_perm foreignTexts foreignValues hrestored hscanned hperm hseg hplace hnot
      hoff

end Decoding

/-! ## A history that moves a column -/

def integerBlob (pg : InsertInput) (texts : List Text)
    (htexts : ∀ t ∈ texts, pg.hasType .integer (.text t)) : Blob pg where
  dataType := .integer
  values := texts.map fun t => some (.text t)
  typed := by
    intro c hc
    obtain ⟨t, ht, heq⟩ := List.mem_map.mp hc
    cases heq
    exact ⟨rfl, htexts t ht⟩

def utcSession : InsertInput := sessionInput fun _ => 0

theorem utcSession_hasType_integer (t : Text) : utcSession.hasType .integer (.text t) :=
  ⟨rfl, t, rfl, fun h => by cases h⟩

def readingsSegment : Segment utcSession (readings.written readingsSettings) where
  rowCount := 1
  segmentByVal := fun _ => none
  blobs :=
    [⟨.timestamptz, [some (.usec 1704067200000000)], by
        intro c hc
        obtain rfl : c = .usec 1704067200000000 := by simpa using hc
        rfl⟩,
      integerBlob utcSession ["1".toList] fun t _ => utcSession_hasType_integer t,
      integerBlob utcSession ["2".toList] fun t _ => utcSession_hasType_integer t]
  tombstones := []
  blobs_written := by
    intro w a hw
    have hlt := (List.getElem?_eq_some_iff.mp hw).1
    have hlength : (readings.written readingsSettings).length = 3 := by decide
    have hcases : w = 0 ∨ w = 1 ∨ w = 2 := by omega
    rcases hcases with rfl | rfl | rfl <;> (cases hw; exact ⟨_, rfl, rfl, rfl⟩)

theorem readings_come_back (dt : DataType) :
    ∀ blob ∈ readingsSegment.blobs, ∀ c, some c ∈ blob.values → c.ComesBack utcSession dt := by
  intro blob hblob c hc
  have hcell : c = .usec 1704067200000000 ∨ ∃ t, c = .text t := by
    simp only [readingsSegment, List.mem_cons, List.not_mem_nil, or_false] at hblob
    rcases hblob with rfl | rfl | rfl
    · exact .inl (by simpa using hc)
    · exact .inr ⟨_, by simpa [integerBlob] using hc⟩
    · exact .inr ⟨_, by simpa [integerBlob] using hc⟩
  rcases hcell with rfl | ⟨t, rfl⟩
  · cases dt with
    | timestamp => exact ⟨by decide, rfl⟩
    | date => exact ⟨by decide, .inl (by decide)⟩
    | _ => exact show (-62135596800000000 : ℤ) ≤ _ by decide
  · cases dt <;> trivial

/-- Dropping the last column moves nothing. -/
theorem readings_agree_after_last_drop :
    DecompressionAgrees (fun _ _ => none) (fun _ _ => none) readingsSettings readings
      (readingsAfter [.dropColumn "b".toList]) [readingsSegment] := by
  have hrun : applyChanges readingsSettings (readings.compressed readingsSettings)
      [.dropColumn "b".toList] = some (readingsAfter [.dropColumn "b".toList]) := by decide
  refine (decompressPartitionInner_agrees (fun _ _ => none) (fun _ _ => none) hrun
    [readingsSegment]).1 (by decide) ?_ ?_
  · intro seg _ _ p a ha hnot
    have hdescribed : ∀ a ∈ storedLive readingsSettings (readingsAfter [.dropColumn "b".toList]),
        ∃ e ∈ (readingsAfter [.dropColumn "b".toList]).descriptor, e.attnum = a.attnum := by decide
    obtain ⟨e, he, heq⟩ := hdescribed a (List.mem_of_getElem? ha)
    exact absurd heq (hnot e he)
  · intro seg hseg a _ off _
    obtain rfl := List.mem_singleton.mp hseg
    refine ⟨fun hsegment => by simp [Settings.isSegmentBy, readingsSettings] at hsegment, ?_⟩
    intro _ w _ blob hblob c hc
    exact readings_come_back a.dataType blob (List.mem_of_getElem? hblob) c
      (List.mem_of_getElem? hc)

/-- With `a` dropped, `b` is restored from the blob of `a`. -/
theorem readings_disagree_after_drop :
    ¬ DecompressionAgrees (fun _ _ => none) (fun _ _ => none) readingsSettings readings
      (readingsAfter [.dropColumn "a".toList]) [readingsSegment] := by
  rintro ⟨-, restored, scanned, hrestored, hscanned, hperm⟩
  have hrows : decompressPartitionInner (fun _ _ => none) readingsSettings
      (readingsAfter [.dropColumn "a".toList]) [readingsSegment] =
        some [[("ts".toList, some (.timestamp 757382400000000)),
          ("b".toList, some (.text "1".toList))]] := by
    decide +kernel
  have hscan : scanPartition (fun _ _ => none) readingsSettings
      (readingsAfter [.dropColumn "a".toList]) [readingsSegment] =
        some [[("ts".toList, some (.timestamp 757382400000000)),
          ("b".toList, some (.text "2".toList))]] := by
    decide +kernel
  cases hrows.symm.trans hrestored
  cases hscan.symm.trans hscanned
  revert hperm
  decide

end DeltaX.Schema
