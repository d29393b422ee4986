import DeltaX.Schema.Resolution
/-!
# Scanning several compressed partitions

Partitions of one table are compressed at different times, between column
changes, and each keeps the descriptor of its own time.  A scan over several of
them loads the metadata of the first and reads the segments of all of them
through it.  The columns it needs come from the plan as attribute numbers and
index the live columns.
-/

namespace DeltaX.Schema

open Column Support.Numbering Support.ListLookup

/-! ## Metadata -/

/-- The columns as `load_metadata` resolves them, in attnum order. -/
structure MetadataInfo where
  columns : List Attr
  blobIdx : List (Option ℕ)
  missingValues : List (Option Value)
deriving DecidableEq, Repr

/-- The value for a column without a blob; segment-by values come from the
segment. -/
def missingValue (s : Settings) (getmissingattr : ℕ → Value) (a : Attr) (idx : Option ℕ) :
    Option Value :=
  if idx.isNone && !s.isSegmentBy a then some (getmissingattr a.attnum) else none

def MetadataInfo.load (s : Settings) (st : TableState) (getmissingattr : ℕ → Value) :
    Except LoadError MetadataInfo := do
  let blobIdx ← loadBlobIdx st
  let columns := liveAttrs st.attrs
  return ⟨columns, blobIdx, List.zipWith (missingValue s getmissingattr) columns blobIdx⟩

def MetadataInfo.numBlobCols (m : MetadataInfo) : ℕ := m.blobIdx.countP Option.isSome

/-- The blobs consumed before column `i` by the counter of `load_next_segment`. -/
def MetadataInfo.blobCounter (s : Settings) (m : MetadataInfo) (i : ℕ) : ℕ :=
  before (fun q : Attr × Option ℕ => !s.isSegmentBy q.1 && q.2.isSome)
    (m.columns.zip m.blobIdx) i

inductive ColumnSource
  | segmentValue
  | blob (colIdx : ℕ)
  | missing (value : Value)
  | emptySlot
deriving DecidableEq, Repr

/-! ## Partitions of one table -/

/-- A partition of the table with the attributes `attrs`: compressed when the
table was `table`, with the changes since then.  `getmissingattr` is read on the
partition's own relation. -/
structure CompressedPartition (s : Settings) (attrs : List Attr) where
  companionOid : ℕ
  table : Table
  changes : List ColumnChange
  state : TableState
  history : applyChanges s (table.compressed s) changes = some state
  attrs_eq : state.attrs = attrs
  getmissingattr : ℕ → Value
  segmentIds : List ℕ

/-- A segment handed to the scan, with the source found for each needed column.
A column that is never put into the slot has none. -/
structure LoadedSegment where
  companionOid : ℕ
  segmentId : ℕ
  sources : List (Option ColumnSource)
deriving DecidableEq, Repr

inductive ScanError
  | load (e : LoadError)
  | blobSlot (slot numBlobCols : ℕ)
  | column (colIdx numCols : ℕ)
deriving DecidableEq, Repr

variable {s : Settings} {attrs : List Attr}

/-- The `_blobs` table of the partition has rows under `colIdx`. -/
def CompressedPartition.hasBlob (p : CompressedPartition s attrs) (colIdx : ℕ) : Bool :=
  decide (colIdx < (p.table.written s).length)

/-- `needed_col_indices`: attribute numbers less one, as far as there are live
columns. -/
def neededColIndices (m : MetadataInfo) (columns : List Attr) : List ℕ :=
  (columns.map fun a => a.attnum - 1).filter fun idx => decide (idx < m.columns.length)

/-- The `_col_idx` values of the needed columns. -/
def neededBlobs (m : MetadataInfo) (needed : List ℕ) : List ℕ :=
  m.blobIdx.zipIdx.filterMap fun q => if q.2 ∈ needed then q.1 else none

/-- Look a blob up under its `_col_idx` and put it into the slot of that number. -/
def placeBlob (p : CompressedPartition s attrs) (slots : List (Option ℕ)) (colIdx : ℕ) :
    Except ScanError (List (Option ℕ)) :=
  if colIdx < slots.length then
    .ok (slots.set colIdx (if p.hasBlob colIdx then some colIdx else none))
  else .error (.blobSlot colIdx slots.length)

def fetchSegmentBlobs (m : MetadataInfo) (p : CompressedPartition s attrs) (needed : List ℕ) :
    Except ScanError (List (Option ℕ)) :=
  (neededBlobs m needed).foldlM (placeBlob p) (List.replicate m.numBlobCols none)

inductive ScanPath
  | append
  | agg
deriving DecidableEq, Repr

/-- The slot a column with the index `colIdx` reads: the append path counts blobs,
the aggregate path goes by the index. -/
def blobSlot (path : ScanPath) (s : Settings) (m : MetadataInfo) (i colIdx : ℕ) : ℕ :=
  match path with
  | .append => m.blobCounter s i
  | .agg => colIdx

def columnSource (path : ScanPath) (s : Settings) (m : MetadataInfo) (slots : List (Option ℕ))
    (i : ℕ) (a : Attr) : ColumnSource :=
  if s.isSegmentBy a then .segmentValue
  else match m.blobIdx[i]?.join with
    | none => .missing (m.missingValues[i]?.join.getD none)
    | some colIdx =>
        match slots[blobSlot path s m i colIdx]?.join with
        | some w => .blob w
        | none => .emptySlot

/-- What is found for the needed column `a`.  Past the live columns the append
path leaves the slot null and the aggregate path indexes out of bounds. -/
def readColumn (path : ScanPath) (s : Settings) (m : MetadataInfo) (slots : List (Option ℕ))
    (a : Attr) : Except ScanError (Option ColumnSource) :=
  match m.columns[a.attnum - 1]? with
  | some column => .ok (some (columnSource path s m slots (a.attnum - 1) column))
  | none =>
      match path with
      | .append => .ok none
      | .agg => .error (.column (a.attnum - 1) m.columns.length)

/-- One segment, read through the metadata given. -/
def loadSegment (path : ScanPath) (m : MetadataInfo) (columns : List Attr)
    (p : CompressedPartition s attrs) (segmentId : ℕ) : Except ScanError LoadedSegment := do
  let slots ← fetchSegmentBlobs m p (neededColIndices m columns)
  let sources ← columns.mapM (readColumn path s m slots)
  return ⟨p.companionOid, segmentId, sources⟩

/-- The segments of a partition, read through the metadata given. -/
def loadSegmentsHeap (path : ScanPath) (m : MetadataInfo) (columns : List Attr)
    (p : CompressedPartition s attrs) : Except ScanError (List LoadedSegment) :=
  p.segmentIds.mapM (loadSegment path m columns p)

/-- Metadata of the first companion, segments of all of them.  There is always
a companion. -/
def loadThroughFirst (path : ScanPath) (columns : List Attr)
    (parts : List (CompressedPartition s attrs)) : Except ScanError (List LoadedSegment) :=
  match parts with
  | [] => .ok []
  | first :: _ => do
      let m ← (MetadataInfo.load s first.state first.getmissingattr).mapError ScanError.load
      let segments ← parts.mapM (loadSegmentsHeap path m columns)
      return segments.flatten

/-- The segments `begin_deltax_append` loads, as the scan goes on to read them. -/
def beginDeltaxAppend (columns : List Attr) (parts : List (CompressedPartition s attrs)) :
    Except ScanError (List LoadedSegment) := loadThroughFirst .append columns parts

/-- The segments `begin_deltax_agg` loads under the metadata of
`load_agg_metadata_from_plan`. -/
def beginDeltaxAgg (columns : List Attr) (parts : List (CompressedPartition s attrs)) :
    Except ScanError (List LoadedSegment) := loadThroughFirst .agg columns parts

/-! ## What a scan is for -/

def CompressedPartition.sourceOf (p : CompressedPartition s attrs) (a : Attr) : ColumnSource :=
  if s.isSegmentBy a then .segmentValue
  else match blobOf p.state.descriptor a with
    | some colIdx => .blob colIdx
    | none => .missing (p.getmissingattr a.attnum)

def CompressedPartition.segments (p : CompressedPartition s attrs) (columns : List Attr) :
    List LoadedSegment :=
  p.segmentIds.map fun segmentId =>
    ⟨p.companionOid, segmentId, columns.map fun a => some (p.sourceOf a)⟩

/-- Whatever surviving columns are needed, every segment has each of them from its
own partition. -/
def ReadsOwnPlaces
    (scan : List Attr → List (CompressedPartition s attrs) → Except ScanError (List LoadedSegment))
    (parts : List (CompressedPartition s attrs)) : Prop :=
  ∀ columns ⊆ liveAttrs attrs, scan columns parts = .ok (parts.flatMap fun p => p.segments columns)

/-- No dropped column stands before a surviving one. -/
def NoGap (attrs : List Attr) : Prop :=
  attrs.Pairwise fun a b => a.dropped = true → b.dropped = true

/-- Every surviving column with a blob was there at both compressions or at neither,
and both supply one value where it was not. -/
def SameColumns (first p : CompressedPartition s attrs) : Prop :=
  ∀ a ∈ liveAttrs attrs, s.stored a = true →
    (a.attnum ≤ first.table.attrs.length ↔ a.attnum ≤ p.table.attrs.length) ∧
    (first.table.attrs.length < a.attnum →
      first.getmissingattr a.attnum = p.getmissingattr a.attnum)

/-- A partition with a segment is read like the first, and positions of the live
columns are their attribute numbers. -/
def ReadThroughFirst (first p : CompressedPartition s attrs) : Prop :=
  p.segmentIds = [] ∨ NoGap attrs ∧ SameColumns first p

/-- Columns with a blob among the first `k` attributes of a table. -/
def writtenBefore (s : Settings) (t : Table) (k : ℕ) : ℕ :=
  before (fun a : Attr => !a.dropped && s.stored a) t.attrs k

section drift

variable {t : Table} {st : TableState} {old added : List Attr}

theorem writtenPairs_eq_filter (s : Settings) (before now : List Attr) :
    writtenPairs s before now =
      (before.zip now).filter fun p => !p.1.dropped && s.stored p.1 := by
  rw [writtenPairs, describedPairs, List.filter_filter]
  apply List.filter_congr
  intro p _
  exact Bool.and_comm _ _

/-- The index of a column is the number of columns written before it; a column
the table did not have yet has none. -/
theorem DriftsTo.blobOf_eq (h : DriftsTo t s st old added) {a : Attr}
    (ha : a ∈ liveAttrs st.attrs) (hstored : s.stored a = true) :
    blobOf st.descriptor a =
      if a.attnum ≤ t.attrs.length then some (writtenBefore s t (a.attnum - 1)) else none := by
  obtain ⟨hmem, hlive⟩ := List.mem_filter.mp ha
  obtain ⟨hone, hle, hget⟩ := getElem?_of_attnum h.attnum_eq hmem
  have hzip := h.map_fst_zip
  by_cases hold : a.attnum ≤ t.attrs.length
  · rw [if_pos hold, h.blobOf_eq_some_iff ha]
    have hlt : a.attnum - 1 < t.attrs.length := by omega
    have hget' : old[a.attnum - 1]? = some a := by
      rwa [h.attrs_eq, List.getElem?_append_left (by rw [h.length_eq]; exact hlt)] at hget
    have hpair : (t.attrs.zip old)[a.attnum - 1]? = some (t.attrs[a.attnum - 1], a) := by
      rw [List.getElem?_zip_eq_some]
      exact ⟨List.getElem?_eq_getElem hlt, hget'⟩
    have hsame : SameColumn t.attrs[a.attnum - 1] a := h.same _ (List.mem_of_getElem? hpair)
    have hdropped : t.attrs[a.attnum - 1].dropped = false := by
      by_contra hne
      have hgone : a.dropped = true := hsame.dropped_of (by simpa using hne)
      simp [hgone] at hlive
    have hwritten : s.stored t.attrs[a.attnum - 1] = true := by
      rw [← h.stored_eq (List.mem_of_getElem? hpair)]
      exact hstored
    refine ⟨(t.attrs[a.attnum - 1], a), ?_, rfl⟩
    have hbefore : writtenBefore s t (a.attnum - 1) =
        before (fun p : Attr × Attr => !p.1.dropped && s.stored p.1) (t.attrs.zip old)
          (a.attnum - 1) := by
      rw [writtenBefore]
      conv_lhs => rw [← hzip]
      rw [before_map]
      rfl
    rw [writtenPairs_eq_filter, hbefore]
    apply getElem?_filter_before hpair
    simp [hdropped, hwritten]
  · rw [if_neg hold]
    have hadded : a ∈ added := by
      rw [h.attrs_eq, List.getElem?_append_right (by rw [h.length_eq]; omega)] at hget
      exact List.mem_of_getElem? hget
    rw [blobOf, h.resolveBlob_added (List.mem_filter.mpr ⟨hadded, hlive⟩)]

end drift

/-! ## Positions of the live columns -/

theorem noGap_iff_before (attrs : List Attr) :
    NoGap attrs ↔ ∀ k a, attrs[k]? = some a → (!a.dropped) = true →
      before (fun a : Attr => !a.dropped) attrs k = k := by
  rw [forall_before_eq_iff]
  simp [NoGap]

theorem NoGap.getElem?_live (hnum : attrs.map Attr.attnum = List.range' 1 attrs.length)
    (h : NoGap attrs) {a : Attr} (ha : a ∈ liveAttrs attrs) :
    (liveAttrs attrs)[a.attnum - 1]? = some a := by
  obtain ⟨hmem, hlive⟩ := List.mem_filter.mp ha
  obtain ⟨-, -, hget⟩ := getElem?_of_attnum hnum hmem
  have hplace := getElem?_filter_before (p := fun a : Attr => !a.dropped) hget hlive
  rwa [(noGap_iff_before attrs).mp h _ _ hget hlive] at hplace

theorem NoGap.take_live (hnum : attrs.map Attr.attnum = List.range' 1 attrs.length)
    (h : NoGap attrs) {a : Attr} (ha : a ∈ liveAttrs attrs) :
    (liveAttrs attrs).take (a.attnum - 1) = attrs.take (a.attnum - 1) := by
  obtain ⟨hmem, hlive⟩ := List.mem_filter.mp ha
  obtain ⟨-, hle, hget⟩ := getElem?_of_attnum hnum hmem
  have hbefore := (noGap_iff_before attrs).mp h _ _ hget hlive
  have hall : (attrs.take (a.attnum - 1)).filter (fun a => !a.dropped) =
      attrs.take (a.attnum - 1) := by
    rw [← List.length_filter_eq_length_iff.trans List.filter_eq_self.symm]
    rw [before] at hbefore
    rw [hbefore, List.length_take]
    omega
  have hsplit : liveAttrs attrs =
      attrs.take (a.attnum - 1) ++ liveAttrs (attrs.drop (a.attnum - 1)) := by
    conv_lhs => rw [← List.take_append_drop (a.attnum - 1) attrs]
    rw [liveAttrs_append]
    exact congrArg (· ++ _) hall
  rw [hsplit, List.take_left' (by rw [List.length_take]; omega)]

/-- With a gap the last live column is past the number of live columns. -/
theorem exists_past_of_gap (hnum : attrs.map Attr.attnum = List.range' 1 attrs.length)
    (h : ¬ NoGap attrs) : ∃ a ∈ liveAttrs attrs, (liveAttrs attrs).length < a.attnum := by
  by_contra hnone
  push Not at hnone
  apply h
  have hnodup : ((liveAttrs attrs).map Attr.attnum).Nodup := by
    have hall : (attrs.map Attr.attnum).Nodup := by
      rw [hnum]
      exact List.nodup_range'
    exact hall.sublist (List.filter_sublist.map _)
  -- as many numbers as there are live columns, none above that count
  have hperm : ((liveAttrs attrs).map Attr.attnum).Perm
      (List.range' 1 (liveAttrs attrs).length) := by
    apply (List.subperm_of_subset hnodup ?_).perm_of_length_le (by simp)
    intro n hn
    obtain ⟨a, ha, rfl⟩ := List.mem_map.mp hn
    have hpos := (getElem?_of_attnum hnum (List.mem_filter.mp ha).1).1
    have hle := hnone a ha
    rw [List.mem_range'_1]
    omega
  rw [NoGap, List.pairwise_iff_getElem]
  intro i j hi hj hij hdropped
  by_contra hlive
  have hnumber : ∀ (k : ℕ) (hk : k < attrs.length), attrs[k].attnum = k + 1 := by
    intro k hk
    have hget : (attrs.map Attr.attnum)[k]? = some (1 + k) := by
      rw [hnum, List.getElem?_range' hk]
      simp
    rw [List.getElem?_map, List.getElem?_eq_getElem hk] at hget
    simpa [Nat.add_comm] using hget
  have hmemj : attrs[j] ∈ liveAttrs attrs :=
    List.mem_filter.mpr ⟨List.getElem_mem hj, by simpa using hlive⟩
  have hlej := hnone _ hmemj
  rw [hnumber j hj] at hlej
  have hmemi : i + 1 ∈ (liveAttrs attrs).map Attr.attnum := by
    rw [hperm.mem_iff, List.mem_range'_1]
    omega
  obtain ⟨a, ha, hattnum⟩ := List.mem_map.mp hmemi
  obtain ⟨hmem, halive⟩ := List.mem_filter.mp ha
  have hget := (getElem?_of_attnum hnum hmem).2.2
  rw [hattnum, Nat.add_sub_cancel, List.getElem?_eq_getElem hi, Option.some.injEq] at hget
  rw [← hget, hdropped] at halive
  cases halive

/-! ## Places under one metadata -/

theorem CompressedPartition.driftsTo (p : CompressedPartition s attrs) :
    ∃ old added, DriftsTo p.table s p.state old added :=
  driftsTo_applyChanges (driftsTo_compressed p.table s) p.history

theorem CompressedPartition.attnum_eq (p : CompressedPartition s attrs) :
    attrs.map Attr.attnum = List.range' 1 attrs.length := by
  obtain ⟨old, added, h⟩ := p.driftsTo
  exact p.attrs_eq ▸ h.attnum_eq

def CompressedPartition.metadata (p : CompressedPartition s attrs) : MetadataInfo :=
  let blobIdx := (liveAttrs attrs).map (blobOf p.state.descriptor)
  ⟨liveAttrs attrs, blobIdx,
    List.zipWith (missingValue s p.getmissingattr) (liveAttrs attrs) blobIdx⟩

theorem MetadataInfo.load_eq (p : CompressedPartition s attrs) :
    MetadataInfo.load s p.state p.getmissingattr = .ok p.metadata := by
  obtain ⟨old, added, h⟩ := p.driftsTo
  rw [MetadataInfo.load, h.loadBlobIdx_eq, p.attrs_eq]
  rfl

/-- Without a gap the columns written before a survivor are those that stand before
it now. -/
theorem writtenBefore_eq {t : Table} {st : TableState} {old added : List Attr}
    (h : DriftsTo t s st old added) (hgap : NoGap st.attrs) {a : Attr}
    (ha : a ∈ liveAttrs st.attrs) (hle : a.attnum ≤ t.attrs.length) :
    writtenBefore s t (a.attnum - 1) = before s.stored (liveAttrs st.attrs) (a.attnum - 1) := by
  have htake : (liveAttrs st.attrs).take (a.attnum - 1) = old.take (a.attnum - 1) := by
    rw [hgap.take_live h.attnum_eq ha, h.attrs_eq,
      List.take_append_of_le_length (by rw [h.length_eq]; omega)]
  have hold : before s.stored old (a.attnum - 1) =
      before s.stored (liveAttrs st.attrs) (a.attnum - 1) := by
    rw [before, before, htake]
  have hleft : writtenBefore s t (a.attnum - 1) =
      before ((fun b : Attr => !b.dropped && s.stored b) ∘ Prod.fst) (t.attrs.zip old)
        (a.attnum - 1) := by
    rw [← before_map, h.map_fst_zip]
    rfl
  have hright : before s.stored old (a.attnum - 1) =
      before (s.stored ∘ Prod.snd) (t.attrs.zip old) (a.attnum - 1) := by
    rw [← before_map, h.map_snd_zip]
  rw [← hold, hleft, hright]
  apply before_congr
  intro q hq
  have hmem : q ∈ t.attrs.zip old := List.mem_of_mem_take hq
  have hlive : q.2 ∈ liveAttrs st.attrs := by
    apply List.mem_of_mem_take (i := a.attnum - 1)
    rw [htake, ← h.map_snd_zip, ← List.map_take]
    exact List.mem_map_of_mem hq
  have hnow : q.2.dropped = false := by simpa using (List.mem_filter.mp hlive).2
  have hthen : q.1.dropped = false := by
    by_contra hdropped
    have hgone := (h.same q hmem).dropped_of (by simpa using hdropped)
    rw [hnow] at hgone
    cases hgone
  simp [hthen, h.stored_eq hmem]

/-- Without a gap the index of a column is its number among the live ones. -/
theorem blobOf_of_noGap (p : CompressedPartition s attrs) (hgap : NoGap attrs) {a : Attr}
    (ha : a ∈ liveAttrs attrs) (hstored : s.stored a = true) :
    blobOf p.state.descriptor a =
      if a.attnum ≤ p.table.attrs.length then
        some (before s.stored (liveAttrs attrs) (a.attnum - 1))
      else none := by
  obtain ⟨old, added, h⟩ := p.driftsTo
  have ha' : a ∈ liveAttrs p.state.attrs := p.attrs_eq.symm ▸ ha
  rw [h.blobOf_eq ha' hstored]
  by_cases hle : a.attnum ≤ p.table.attrs.length
  · rw [if_pos hle, if_pos hle, writtenBefore_eq h (p.attrs_eq.symm ▸ hgap) ha' hle, p.attrs_eq]
  · rw [if_neg hle, if_neg hle]

theorem stored_of_blobOf (p : CompressedPartition s attrs) {a : Attr} (ha : a ∈ liveAttrs attrs)
    {w : ℕ} (hw : blobOf p.state.descriptor a = some w) :
    s.stored a = true ∧ p.hasBlob w = true := by
  obtain ⟨old, added, h⟩ := p.driftsTo
  obtain ⟨q, hq, rfl⟩ := (h.blobOf_eq_some_iff (p.attrs_eq.symm ▸ ha) w).mp hw
  obtain ⟨hzip, -, hstored⟩ := DriftsTo.mem_writtenPairs.mp (List.mem_of_getElem? hq)
  refine ⟨(h.stored_eq hzip).trans hstored, ?_⟩
  have hlt := (List.getElem?_eq_some_iff.mp hq).1
  rw [CompressedPartition.hasBlob, h.written_eq, List.length_map]
  simpa using hlt

/-- Without a gap every column before an old one is at least as old. -/
theorem isSome_blobOf_of_before (p : CompressedPartition s attrs) (hgap : NoGap attrs) {a b : Attr}
    (hle : a.attnum ≤ p.table.attrs.length)
    (hb : b ∈ (liveAttrs attrs).take (a.attnum - 1)) :
    (blobOf p.state.descriptor b).isSome = s.stored b := by
  have hlive := List.mem_of_mem_take hb
  have hearlier : b.attnum ≤ p.table.attrs.length := by
    have hnodup : (liveAttrs attrs).Nodup := by
      have hall : (attrs.map Attr.attnum).Nodup := by
        rw [p.attnum_eq]
        exact List.nodup_range'
      exact (hall.of_map _).sublist List.filter_sublist
    obtain ⟨j, hj⟩ := List.mem_iff_getElem?.mp hb
    rw [List.getElem?_take] at hj
    split at hj
    case isFalse => cases hj
    case isTrue hlt =>
    have hplace := hgap.getElem?_live p.attnum_eq hlive
    have hsame : j = b.attnum - 1 :=
      (List.getElem?_inj (List.getElem?_eq_some_iff.mp hj).1 hnodup).mp (hj.trans hplace.symm)
    omega
  cases hs : s.stored b with
  | false =>
      cases hblob : blobOf p.state.descriptor b with
      | none => rfl
      | some v =>
          rw [(stored_of_blobOf p hlive hblob).1] at hs
          cases hs
  | true =>
      rw [blobOf_of_noGap p hgap hlive hs, if_pos hearlier]
      rfl

/-- Without a gap the counter of the append path stands at the index of the column
it has come to. -/
theorem blobCounter_of_noGap (p : CompressedPartition s attrs) (hgap : NoGap attrs) {a : Attr}
    (ha : a ∈ liveAttrs attrs) {w : ℕ} (hw : blobOf p.state.descriptor a = some w) :
    p.metadata.blobCounter s (a.attnum - 1) = w ∧ w < p.metadata.numBlobCols := by
  have hplaced := hw
  rw [blobOf_of_noGap p hgap ha (stored_of_blobOf p ha hw).1] at hplaced
  split at hplaced
  case isFalse => cases hplaced
  case isTrue hle =>
  cases hplaced
  have hbefore : ∀ b ∈ (liveAttrs attrs).take (a.attnum - 1),
      (blobOf p.state.descriptor b).isSome = s.stored b :=
    fun b hb => isSome_blobOf_of_before p hgap hle hb
  constructor
  · have hzip : p.metadata.columns.zip p.metadata.blobIdx =
        (liveAttrs attrs).map fun b => (b, blobOf p.state.descriptor b) :=
      List.map_prod_left_eq_zip.symm
    rw [MetadataInfo.blobCounter, hzip, before_map]
    apply before_congr
    intro b hb
    simp only [Function.comp_apply, hbefore b hb, Settings.stored, Bool.and_self]
  · have hplace := getElem?_filter_before
      (p := fun b => (blobOf p.state.descriptor b).isSome) (hgap.getElem?_live p.attnum_eq ha)
      (by rw [hw]; rfl)
    have hlt := (List.getElem?_eq_some_iff.mp hplace).1
    rw [before_congr hbefore] at hlt
    rw [MetadataInfo.numBlobCols, List.countP_eq_length_filter]
    simpa [CompressedPartition.metadata, List.filter_map, Function.comp_def] using hlt

/-! ## One segment read through another partition's metadata -/

theorem mem_neededBlobs {m : MetadataInfo} {needed : List ℕ} {w : ℕ} :
    w ∈ neededBlobs m needed ↔ ∃ i ∈ needed, m.blobIdx[i]? = some (some w) := by
  unfold neededBlobs
  rw [List.mem_filterMap]
  constructor
  · rintro ⟨⟨idx, i⟩, hmem, hsome⟩
    rw [List.mem_zipIdx_iff_getElem?] at hmem
    split at hsome
    case isFalse => cases hsome
    case isTrue hneeded =>
    obtain rfl : idx = some w := hsome
    exact ⟨i, hneeded, hmem⟩
  · rintro ⟨i, hneeded, hget⟩
    refine ⟨(some w, i), List.mem_zipIdx_iff_getElem?.mpr hget, ?_⟩
    rw [if_pos hneeded]

/-- What a slot holds once its blob was looked up. -/
def CompressedPartition.fetched (p : CompressedPartition s attrs) (w : ℕ) : Option ℕ :=
  if p.hasBlob w then some w else none

/-- Every blob ends up in the slot of its number, when there are enough slots. -/
theorem foldlM_placeBlob (p : CompressedPartition s attrs) {ws : List ℕ} {slots : List (Option ℕ)}
    (hws : ∀ w ∈ ws, w < slots.length) :
    ∃ slots', ws.foldlM (placeBlob p) slots = .ok slots' ∧ slots'.length = slots.length ∧
      ∀ w, w ∈ ws ∨ slots[w]? = some (p.fetched w) → slots'[w]? = some (p.fetched w) := by
  induction ws generalizing slots with
  | nil =>
      refine ⟨slots, rfl, rfl, ?_⟩
      intro w hw
      exact hw.resolve_left List.not_mem_nil
  | cons v ws ih =>
      have hv : v < slots.length := hws v List.mem_cons_self
      have hplace : placeBlob p slots v = .ok (slots.set v (p.fetched v)) := if_pos hv
      obtain ⟨slots', hrun, hlen, hheld⟩ := @ih (slots.set v (p.fetched v))
        (by simpa using fun w hw => hws w (List.mem_cons_of_mem _ hw))
      refine ⟨slots', ?_, by simpa using hlen, ?_⟩
      · rw [List.foldlM_cons, hplace]
        exact hrun
      · intro w hw
        apply hheld
        by_cases hwv : w = v
        · right
          rw [hwv, List.getElem?_set_self hv]
        · rcases hw with hw | hw
          · exact .inl ((List.mem_cons.mp hw).resolve_left hwv)
          · right
            rwa [List.getElem?_set_ne (Ne.symm hwv)]

/-- The source the metadata of `first` gives a column of `p`. -/
def sourceThrough (first p : CompressedPartition s attrs) (a : Attr) : ColumnSource :=
  if s.isSegmentBy a then .segmentValue
  else match blobOf first.state.descriptor a with
    | some w => if p.hasBlob w then .blob w else .emptySlot
    | none => .missing (first.getmissingattr a.attnum)

theorem fetchSegmentBlobs_of_noGap (first p : CompressedPartition s attrs) (hgap : NoGap attrs)
    (needed : List ℕ) :
    ∃ slots, fetchSegmentBlobs first.metadata p needed = .ok slots ∧
      ∀ i ∈ needed, ∀ a ∈ liveAttrs attrs, a.attnum - 1 = i →
        ∀ w, blobOf first.state.descriptor a = some w → slots[w]? = some (p.fetched w) := by
  have hget : ∀ a ∈ liveAttrs attrs,
      first.metadata.blobIdx[a.attnum - 1]? = some (blobOf first.state.descriptor a) := by
    intro a ha
    have hplace := hgap.getElem?_live first.attnum_eq ha
    rw [CompressedPartition.metadata, List.getElem?_map, hplace]
    rfl
  have hslots : ∀ w ∈ neededBlobs first.metadata needed,
      w < (List.replicate first.metadata.numBlobCols (none : Option ℕ)).length := by
    intro w hw
    obtain ⟨i, -, hi⟩ := mem_neededBlobs.mp hw
    rw [CompressedPartition.metadata, List.getElem?_map, Option.map_eq_some_iff] at hi
    obtain ⟨a, ha, hblob⟩ := hi
    rw [List.length_replicate]
    exact (blobCounter_of_noGap first hgap (List.mem_of_getElem? ha) hblob).2
  obtain ⟨slots, hrun, -, hheld⟩ := foldlM_placeBlob p hslots
  refine ⟨slots, hrun, ?_⟩
  rintro i hi a ha rfl w hw
  apply hheld w
  left
  exact mem_neededBlobs.mpr ⟨a.attnum - 1, hi, by rw [hget a ha, hw]⟩

/-- Without a gap both paths read every needed column at the index the metadata
gives. -/
theorem loadSegment_of_noGap (path : ScanPath) (first p : CompressedPartition s attrs)
    (hgap : NoGap attrs) {columns : List Attr} (hcolumns : columns ⊆ liveAttrs attrs)
    (segmentId : ℕ) :
    loadSegment path first.metadata columns p segmentId =
      .ok ⟨p.companionOid, segmentId, columns.map fun a => some (sourceThrough first p a)⟩ := by
  have hlive : ∀ a ∈ columns, first.metadata.columns[a.attnum - 1]? = some a :=
    fun a ha => hgap.getElem?_live first.attnum_eq (hcolumns ha)
  obtain ⟨slots, hslots, hheld⟩ :=
    fetchSegmentBlobs_of_noGap first p hgap (neededColIndices first.metadata columns)
  have hread : columns.mapM (readColumn path s first.metadata slots) =
      .ok (columns.map fun a => some (sourceThrough first p a)) := by
    apply mapM_eq_pure
    intro a ha
    have hneeded : a.attnum - 1 ∈ neededColIndices first.metadata columns := by
      have hlt := (List.getElem?_eq_some_iff.mp (hlive a ha)).1
      exact List.mem_filter.mpr ⟨List.mem_map_of_mem ha, by simpa using hlt⟩
    have hidx : first.metadata.blobIdx[a.attnum - 1]? =
        some (blobOf first.state.descriptor a) := by
      rw [CompressedPartition.metadata, List.getElem?_map,
        hgap.getElem?_live first.attnum_eq (hcolumns ha)]
      rfl
    have hmissing : first.metadata.missingValues[a.attnum - 1]? =
        some (missingValue s first.getmissingattr a (blobOf first.state.descriptor a)) := by
      have hcol := hlive a ha
      rw [CompressedPartition.metadata] at hidx hcol ⊢
      rw [List.getElem?_zipWith, hcol, hidx]
    simp only [readColumn, hlive a ha, pure, Except.pure, Except.ok.injEq, Option.some.injEq]
    unfold columnSource sourceThrough
    rw [hidx, hmissing]
    by_cases hseg : s.isSegmentBy a = true
    · rw [if_pos hseg, if_pos hseg]
    · rw [if_neg hseg, if_neg hseg]
      cases hblob : blobOf first.state.descriptor a with
      | none => simp [missingValue, hseg]
      | some w =>
          have hslot : blobSlot path s first.metadata (a.attnum - 1) w = w := by
            cases path with
            | append => exact (blobCounter_of_noGap first hgap (hcolumns ha) hblob).1
            | agg => rfl
          simp only [Option.join_some, hslot]
          rw [hheld _ hneeded a (hcolumns ha) rfl w hblob, Option.join_some,
            CompressedPartition.fetched]
          cases p.hasBlob w <;> rfl
  rw [loadSegment, hslots]
  show (columns.mapM (readColumn path s first.metadata slots)).bind _ = _
  rw [hread]
  rfl

/-- A needed column past the live ones is not read. -/
theorem loadSegment_past (path : ScanPath) (first p : CompressedPartition s attrs) {a : Attr}
    (hpast : (liveAttrs attrs).length < a.attnum) (segmentId : ℕ) (source : ColumnSource) :
    loadSegment path first.metadata [a] p segmentId ≠
      .ok ⟨p.companionOid, segmentId, [some source]⟩ := by
  have hnone : first.metadata.columns[a.attnum - 1]? = none :=
    List.getElem?_eq_none (Nat.le_sub_one_of_lt hpast)
  have hneeded : neededColIndices first.metadata [a] = [] := by
    have hout : ¬ a.attnum - 1 < first.metadata.columns.length := by
      show ¬ a.attnum - 1 < (liveAttrs attrs).length
      omega
    simp [neededColIndices, hout]
  have hblobs : neededBlobs first.metadata [] = [] := by simp [neededBlobs]
  rw [loadSegment, hneeded, fetchSegmentBlobs, hblobs]
  cases path <;>
    simp [readColumn, hnone, bind, Except.bind, pure, Except.pure]

/-- Through the metadata of `first` a column with a blob is read at its own place
exactly when both have it or neither, with one value where neither has it. -/
theorem sourceThrough_eq_iff (first p : CompressedPartition s attrs) (hgap : NoGap attrs) {a : Attr}
    (ha : a ∈ liveAttrs attrs) (hstored : s.stored a = true) :
    sourceThrough first p a = p.sourceOf a ↔
      (a.attnum ≤ first.table.attrs.length ↔ a.attnum ≤ p.table.attrs.length) ∧
      (first.table.attrs.length < a.attnum →
        first.getmissingattr a.attnum = p.getmissingattr a.attnum) := by
  have hseg : s.isSegmentBy a = false := by simpa [Settings.stored] using hstored
  have hfirst := blobOf_of_noGap first hgap ha hstored
  have hown := blobOf_of_noGap p hgap ha hstored
  unfold sourceThrough CompressedPartition.sourceOf
  by_cases hle : a.attnum ≤ first.table.attrs.length <;>
    by_cases hle' : a.attnum ≤ p.table.attrs.length
  · rw [if_pos hle'] at hown
    have hhas := (stored_of_blobOf p ha hown).2
    simp [hseg, hfirst, hown, hle, hle', hhas]
  · simp only [hseg, hfirst, hown, hle, hle', Bool.false_eq_true, if_true, if_false]
    split <;> simp
  · simp [hseg, hfirst, hown, hle, hle']
  · simp [hseg, hfirst, hown, hle, hle', Nat.lt_of_not_le hle]

theorem forall_sourceThrough_eq_iff (first p : CompressedPartition s attrs) (hgap : NoGap attrs) :
    (∀ a ∈ liveAttrs attrs, sourceThrough first p a = p.sourceOf a) ↔ SameColumns first p := by
  apply forall₂_congr
  intro a ha
  by_cases hstored : s.stored a = true
  · rw [sourceThrough_eq_iff first p hgap ha hstored]
    exact ⟨fun h _ => h, fun h => h hstored⟩
  · have hseg : s.isSegmentBy a = true := by simpa [Settings.stored] using hstored
    simp [sourceThrough, CompressedPartition.sourceOf, hseg, hstored]

/-! ## All of them -/

/-- A scan is right exactly when every segment is. -/
theorem loadThroughFirst_eq_iff (path : ScanPath) (columns : List Attr)
    (first : CompressedPartition s attrs) (others : List (CompressedPartition s attrs)) :
    loadThroughFirst path columns (first :: others) =
        .ok ((first :: others).flatMap fun p => p.segments columns) ↔
      ∀ p ∈ first :: others, ∀ segmentId ∈ p.segmentIds,
        loadSegment path first.metadata columns p segmentId =
          .ok ⟨p.companionOid, segmentId, columns.map fun a => some (p.sourceOf a)⟩ := by
  rw [loadThroughFirst, MetadataInfo.load_eq]
  show (do
    let segments ← (first :: others).mapM (loadSegmentsHeap path first.metadata columns)
    return segments.flatten : Except ScanError (List LoadedSegment)) = _ ↔ _
  rw [mapM_flatten_eq_ok_iff]
  · apply forall₂_congr
    intro p _
    exact mapM_eq_ok_iff p.segmentIds
  · intro p segments hload
    rw [length_of_mapM_ok hload, CompressedPartition.segments, List.length_map]

theorem readsOwnPlaces_iff (path : ScanPath) (first : CompressedPartition s attrs)
    (others : List (CompressedPartition s attrs)) :
    ReadsOwnPlaces (loadThroughFirst path) (first :: others) ↔
      ∀ p ∈ first :: others, ReadThroughFirst first p := by
  unfold ReadsOwnPlaces
  simp only [loadThroughFirst_eq_iff]
  constructor
  · intro h p hp
    by_cases hids : p.segmentIds = []
    · exact .inl hids
    right
    obtain ⟨segmentId, hid⟩ := List.exists_mem_of_ne_nil _ hids
    -- one needed column at a time tells them all
    have hone : ∀ a ∈ liveAttrs attrs, loadSegment path first.metadata [a] p segmentId =
        .ok ⟨p.companionOid, segmentId, [some (p.sourceOf a)]⟩ :=
      fun a ha => h [a] (by simpa using ha) p hp segmentId hid
    have hgap : NoGap attrs := by
      by_contra hgap
      obtain ⟨a, ha, hpast⟩ := exists_past_of_gap first.attnum_eq hgap
      exact loadSegment_past path first p hpast segmentId _ (hone a ha)
    refine ⟨hgap, (forall_sourceThrough_eq_iff first p hgap).mp ?_⟩
    intro a ha
    have hone' : [a] ⊆ liveAttrs attrs := by simpa using ha
    have hread := loadSegment_of_noGap path first p hgap hone' segmentId
    simpa using hread.symm.trans (hone a ha)
  · intro h columns hcolumns p hp segmentId hid
    obtain ⟨hgap, hsame⟩ := (h p hp).resolve_left (List.ne_nil_of_mem hid)
    rw [loadSegment_of_noGap path first p hgap hcolumns]
    have hsources := (forall_sourceThrough_eq_iff first p hgap).mpr hsame
    rw [List.map_congr_left fun a ha => congrArg some (hsources a (hcolumns ha))]

def readingsWithC : Table where
  attrs := (readingsAfter [.addColumn "c".toList .integer (-1) none]).attrs
  attnum_eq := by decide
  names_nodup := by decide

/-- Compressed before `c` was added with the default 7. -/
def earlyPartition : CompressedPartition readingsSettings readingsWithC.attrs where
  companionOid := 1
  table := readings
  changes := [.addColumn "c".toList .integer (-1) none]
  state := readingsAfter [.addColumn "c".toList .integer (-1) none]
  history := by decide
  attrs_eq := rfl
  getmissingattr := fun _ => some (.text "7".toList)
  segmentIds := [1]

/-- Compressed after `c` was added. -/
def latePartition : CompressedPartition readingsSettings readingsWithC.attrs where
  companionOid := 2
  table := readingsWithC
  changes := []
  state := readingsWithC.compressed readingsSettings
  history := rfl
  attrs_eq := rfl
  getmissingattr := fun _ => none
  segmentIds := [1]

end DeltaX.Schema
