import DeltaX.Schema.Resolution
import Mathlib.Logic.Function.Basic
/-!
# Which column a colstats row belongs to

`load_metadata` resolves the physical columns through the descriptor and lets
the extracted JSON fields follow; the colstats phase of `load_segments_heap`
numbers the same column names by position.  The numberings meet exactly when
nothing has moved: without extracted fields a dropped column may only be at the
end, with extracted fields no column may be dropped or added at all and every field
needs a name of its own.
-/

namespace DeltaX.Schema

open Column Support.Numbering Support.ListLookup

/-- A `json_extract` path: the synthetic column it is stored as. -/
structure ExtractSpec where
  targetName : Text
  targetType : DataType
deriving DecidableEq, Repr

/-! ## The three index computations -/

/-- Surviving columns with a blob, as `load_metadata` counts them. -/
def nonSegmentByPhysicalCount (descriptor : List DescriptorEntry) : ℕ :=
  (descriptor.filter fun e => !e.dropped && e.compressedColIdx.isSome).length

/-- `load_metadata`'s `blob_idx`, extracted fields included. -/
def loadMetadata (st : TableState) (specs : List ExtractSpec) :
    Except LoadError (List (Option ℕ)) := do
  let blobIdx ← loadBlobIdx st
  pure (blobIdx ++ specs.mapIdx fun i _ => some (nonSegmentByPhysicalCount st.descriptor + i))

/-- `load_metadata`'s `col_names` and `col_types`. -/
def colNames (st : TableState) (specs : List ExtractSpec) : List (Text × DataType) :=
  (liveAttrs st.attrs).map (fun a => (a.name, a.dataType)) ++
    specs.map fun spec => (spec.targetName, spec.targetType)

/-- The two maps of the colstats phase. -/
structure ColIndex where
  idxToCol : List (Text × DataType)
  colToIdx : Text → Option ℕ

/-- One turn of the loop over `col_names`. -/
def ColIndex.push (s : Settings) (ix : ColIndex) (col : Text × DataType) : ColIndex :=
  if col.1 ∈ s.segmentBy then ix
  else
    { idxToCol := ix.idxToCol ++ [col]
      colToIdx := Function.update ix.colToIdx col.1 (some ix.idxToCol.length) }

def colIndex (s : Settings) (cols : List (Text × DataType)) : ColIndex :=
  cols.foldl (ColIndex.push s) ⟨[], fun _ => none⟩

/-- The length of `compressed_blobs`. -/
def numBlobCols (blobIdx : List (Option ℕ)) : ℕ := (blobIdx.filter Option.isSome).length

/-! ## The property -/

/-- Statistics are read from the column they were written for. -/
structure StatsIndexed (s : Settings) (t : Table) (st : TableState) (specs : List ExtractSpec)
    (blobIdx : List (Option ℕ)) : Prop where
  col_to_idx : ∀ e ∈ st.descriptor, e.dropped = false → ∀ w, e.compressedColIdx = some w →
    (colIndex s (colNames st specs)).colToIdx e.name = some w
  idx_to_col : ∀ e ∈ st.descriptor, e.dropped = false → ∀ w, e.compressedColIdx = some w →
    (colIndex s (colNames st specs)).idxToCol[w]? = some (e.name, e.dataType)
  blob_idx_lt : ∀ w, some w ∈ blobIdx → w < numBlobCols blobIdx
  extracted : ∀ i < specs.length,
    blobIdx[(liveAttrs st.attrs).length + i]? = some (some ((t.written s).length + i))
  extracted_stats : ∀ (i : ℕ) (spec : ExtractSpec), specs[i]? = some spec →
    (colIndex s (colNames st specs)).colToIdx spec.targetName = some ((t.written s).length + i) ∧
      (colIndex s (colNames st specs)).idxToCol[(t.written s).length + i]? =
        some (spec.targetName, spec.targetType)

/-- Extracted fields behind the columns they were written behind, under names of their
own. -/
structure ExtractedAligned (s : Settings) (st : TableState) (specs : List ExtractSpec) : Prop where
  none_dropped : ∀ e ∈ st.descriptor, e.compressedColIdx.isSome = true → e.dropped = false
  none_added : ∀ a ∈ storedLive s st, ∃ e ∈ st.descriptor, e.attnum = a.attnum
  names_nodup : ((storedLive s st).map Attr.name ++ specs.map ExtractSpec.targetName).Nodup
  not_segmentBy : ∀ spec ∈ specs, spec.targetName ∉ s.segmentBy

def StatsAligned (s : Settings) (st : TableState) (specs : List ExtractSpec) : Prop :=
  (specs = [] ∧ KeepsPlaces st.descriptor) ∨ (specs ≠ [] ∧ ExtractedAligned s st specs)

/-! ## The loop -/

/-- `i` is the last place of a name. -/
def LastPlace (cols : List (Text × DataType)) (name : Text) (i : ℕ) : Prop :=
  (∃ dataType, cols[i]? = some (name, dataType)) ∧
    ∀ j dataType, cols[j]? = some (name, dataType) → j ≤ i

theorem lastPlace_of_nodup {cols : List (Text × DataType)} (hnodup : (cols.map Prod.fst).Nodup)
    {i : ℕ} {col : Text × DataType} (hi : cols[i]? = some col) : LastPlace cols col.1 i := by
  refine ⟨⟨col.2, hi⟩, ?_⟩
  intro j dataType hj
  have hnames : (cols.map Prod.fst)[j]? = (cols.map Prod.fst)[i]? := by
    rw [List.getElem?_map, List.getElem?_map, hi, hj]
    rfl
  have hlt := (List.getElem?_eq_some_iff.mp hj).1
  exact Nat.le_of_eq ((List.getElem?_inj (by simpa using hlt) hnodup).mp hnames)

def ColIndex.Indexed (ix : ColIndex) : Prop :=
  ∀ name i, ix.colToIdx name = some i ↔ LastPlace ix.idxToCol name i

theorem ColIndex.indexed_push (s : Settings) {ix : ColIndex} (h : ix.Indexed)
    (col : Text × DataType) : (ix.push s col).Indexed := by
  unfold ColIndex.push
  split
  · exact h
  · intro name i
    have hlast : ∀ dataType, (ix.idxToCol ++ [col])[ix.idxToCol.length]? = some (name, dataType) ↔
        col = (name, dataType) := by simp
    by_cases hname : col.1 = name
    · subst hname
      simp only [Function.update_self, Option.some.injEq]
      constructor
      · rintro rfl
        refine ⟨⟨col.2, by simp⟩, ?_⟩
        intro j dataType hj
        have := (List.getElem?_eq_some_iff.mp hj).1
        simp at this
        omega
      · rintro ⟨⟨dataType, hi⟩, hmax⟩
        have hle := hmax ix.idxToCol.length col.2 (by simp)
        have hlt := (List.getElem?_eq_some_iff.mp hi).1
        simp at hlt
        omega
    · simp only [Function.update_of_ne (Ne.symm hname), h name i, LastPlace]
      -- the new column is another one, so the places of `name` are the old ones
      have hplace : ∀ (j : ℕ) (dataType : DataType),
          (ix.idxToCol ++ [col])[j]? = some (name, dataType) ↔
            ix.idxToCol[j]? = some (name, dataType) := by
        intro j dataType
        rcases Nat.lt_trichotomy j ix.idxToCol.length with hj | rfl | hj
        · rw [List.getElem?_append_left hj]
        · rw [hlast]
          refine iff_of_false ?_ (by simp)
          rintro rfl
          exact hname rfl
        · rw [List.getElem?_eq_none (by simp; omega), List.getElem?_eq_none (by omega)]
      simp only [hplace]

theorem ColIndex.foldl_push (s : Settings) (cols : List (Text × DataType)) {ix : ColIndex}
    (h : ix.Indexed) :
    (cols.foldl (ColIndex.push s) ix).Indexed ∧
      (cols.foldl (ColIndex.push s) ix).idxToCol =
        ix.idxToCol ++ cols.filter fun col => decide (col.1 ∉ s.segmentBy) := by
  induction cols generalizing ix with
  | nil => exact ⟨h, (List.append_nil _).symm⟩
  | cons col cols ih =>
      obtain ⟨hindexed, hcols⟩ := ih (ix.indexed_push s h col)
      refine ⟨hindexed, ?_⟩
      rw [List.foldl_cons, hcols, ColIndex.push]
      by_cases hseg : col.1 ∈ s.segmentBy <;> simp [hseg]

theorem ColIndex.indexed_empty : ColIndex.Indexed ⟨[], fun _ => none⟩ := by
  intro name i
  simp [LastPlace]

theorem colToIdx_eq_some_iff (s : Settings) (cols : List (Text × DataType)) (name : Text) (i : ℕ) :
    (colIndex s cols).colToIdx name = some i ↔ LastPlace (colIndex s cols).idxToCol name i :=
  (ColIndex.foldl_push s cols ColIndex.indexed_empty).1 name i

/-- The columns are numbered by their place among those with a blob; extracted
fields follow the live columns. -/
theorem idxToCol_colNames (s : Settings) (st : TableState) (specs : List ExtractSpec) :
    (colIndex s (colNames st specs)).idxToCol =
      (storedLive s st).map (fun a => (a.name, a.dataType)) ++
        (specs.map fun spec => (spec.targetName, spec.targetType)).filter fun col =>
          decide (col.1 ∉ s.segmentBy) := by
  rw [colIndex, (ColIndex.foldl_push s _ ColIndex.indexed_empty).2, colNames, List.filter_append, List.nil_append,
    List.filter_map, storedLive]
  congr 2
  apply List.filter_congr
  intro a _
  simp [Settings.stored, Settings.isSegmentBy]

/-! ## Against the descriptor -/

namespace DriftsTo

variable {t : Table} {s : Settings} {st : TableState} {old added : List Attr}

theorem written_of_entry (h : DriftsTo t s st old added) {e : DescriptorEntry}
    (he : e ∈ st.descriptor) {w : ℕ} (hw : e.compressedColIdx = some w) :
    ∃ p, (writtenPairs s t.attrs old)[w]? = some p ∧ e.name = p.2.name ∧
      e.dataType = p.2.dataType ∧ e.dropped = p.2.dropped := by
  obtain ⟨p, hp, hattnum⟩ := h.attnum_of_mem_descriptor he
  obtain ⟨idx, hmem, hidx⟩ := h.entry_mem hp
  have heq := List.inj_on_of_nodup_map h.descriptor_attnum_nodup he hmem hattnum
  have hsame := h.same p (mem_describedPairs.mp hp).1
  subst heq
  exact ⟨p, (hidx w).mp hw, hsame.name_eq.symm, hsame.dataType_eq.symm, rfl⟩

theorem entry_of_written (h : DriftsTo t s st old added) {w : ℕ} {p : Attr × Attr}
    (hw : (writtenPairs s t.attrs old)[w]? = some p) :
    ∃ e ∈ st.descriptor, e.compressedColIdx = some w ∧ e.name = p.2.name ∧
      e.dataType = p.2.dataType ∧ e.dropped = p.2.dropped := by
  obtain ⟨hzip, hdropped, -⟩ := mem_writtenPairs.mp (List.mem_of_getElem? hw)
  obtain ⟨idx, hmem, hidx⟩ := h.entry_mem (mem_describedPairs.mpr ⟨hzip, hdropped⟩)
  have hsame := h.same p hzip
  exact ⟨_, hmem, (hidx w).mpr hw, hsame.name_eq.symm, hsame.dataType_eq.symm, rfl⟩

theorem nonSegmentByPhysicalCount_eq (h : DriftsTo t s st old added) :
    nonSegmentByPhysicalCount st.descriptor =
      ((writtenPairs s t.attrs old).filter fun p => !p.2.dropped).length := by
  have hpairs := filter_isSome_zip_number (p := fun p : Attr × Attr => s.stored p.1) 0
    (describedPairs t.attrs old)
  rw [nonSegmentByPhysicalCount, h.descriptor_eq, descriptorOf, List.filter_map, List.length_map,
    writtenPairs, ← hpairs, List.filter_map, List.length_map, List.filter_filter]
  rfl

theorem blobOf_isSome (h : DriftsTo t s st old added) {a : Attr} (ha : a ∈ liveAttrs st.attrs) :
    (blobOf st.descriptor a).isSome = true ↔
      a ∈ ((writtenPairs s t.attrs old).filter fun p => !p.2.dropped).map Prod.snd := by
  have hlive : a.dropped = false := by simpa using (List.mem_filter.mp ha).2
  rw [Option.isSome_iff_exists]
  constructor
  · rintro ⟨w, hw⟩
    obtain ⟨p, hp, rfl⟩ := (h.blobOf_eq_some_iff ha w).mp hw
    exact List.mem_map.mpr ⟨p, List.mem_filter.mpr ⟨List.mem_of_getElem? hp, by simp [hlive]⟩, rfl⟩
  · intro hmem
    obtain ⟨p, hp, rfl⟩ := List.mem_map.mp hmem
    obtain ⟨w, hw⟩ := List.mem_iff_getElem?.mp (List.mem_filter.mp hp).1
    exact ⟨w, (h.blobOf_eq_some_iff ha w).mpr ⟨p, hw, rfl⟩⟩

theorem filter_blobOf_isSome (h : DriftsTo t s st old added) :
    (liveAttrs st.attrs).filter (Option.isSome ∘ blobOf st.descriptor) =
      ((writtenPairs s t.attrs old).filter fun p => !p.2.dropped).map Prod.snd := by
  have hnodup : (storedLive s st).Nodup := List.Nodup.of_map _ h.nodup_storedLive
  have hmem : ∀ a ∈ storedLive s st, a ∈ liveAttrs st.attrs := fun a ha => (List.mem_filter.mp ha).1
  have hstored : (liveAttrs st.attrs).filter (Option.isSome ∘ blobOf st.descriptor) =
      (storedLive s st).filter (Option.isSome ∘ blobOf st.descriptor) := by
    rw [storedLive, List.filter_filter]
    apply List.filter_congr
    intro a ha
    rw [Bool.eq_iff_iff, Bool.and_eq_true, Function.comp]
    refine ⟨fun hsome => ⟨hsome, ?_⟩, And.left⟩
    obtain ⟨p, hp, rfl⟩ := List.mem_map.mp ((h.blobOf_isSome ha).mp hsome)
    obtain ⟨hzip, -, hstore⟩ := mem_writtenPairs.mp (List.mem_filter.mp hp).1
    rw [h.stored_eq hzip]
    exact hstore
  rw [h.storedLive_eq] at hnodup hmem
  have hsurvivors := List.filter_eq_self.mpr fun a ha =>
    (h.blobOf_isSome (hmem a (List.mem_append_left _ ha))).mpr ha
  have hadded : ((liveAttrs added).filter s.stored).filter
      (Option.isSome ∘ blobOf st.descriptor) = [] := by
    rw [List.filter_eq_nil_iff]
    intro a ha hsome
    have hlive := hmem a (List.mem_append_right _ ha)
    exact (List.nodup_append.mp hnodup).2.2 a ((h.blobOf_isSome hlive).mp hsome) a ha rfl
  rw [hstored, h.storedLive_eq, List.filter_append, hadded, List.append_nil]
  exact hsurvivors

/-- `num_blob_cols` counts the survivors and the extracted fields. -/
theorem numBlobCols_eq (h : DriftsTo t s st old added) (specs : List ExtractSpec) :
    numBlobCols ((liveAttrs st.attrs).map (blobOf st.descriptor) ++
        specs.mapIdx fun i _ => some (nonSegmentByPhysicalCount st.descriptor + i)) =
      ((writtenPairs s t.attrs old).filter fun p => !p.2.dropped).length + specs.length := by
  have hextracted : (specs.mapIdx fun i (_ : ExtractSpec) =>
      some (nonSegmentByPhysicalCount st.descriptor + i)).filter Option.isSome =
        specs.mapIdx fun i _ => some (nonSegmentByPhysicalCount st.descriptor + i) := by
    apply List.filter_eq_self.mpr
    intro idx hmem
    obtain ⟨i, hi, rfl⟩ := List.mem_mapIdx.mp hmem
    rfl
  rw [numBlobCols, List.filter_append, hextracted, List.filter_map, h.filter_blobOf_isSome]
  simp

theorem loadMetadata_eq (h : DriftsTo t s st old added) (specs : List ExtractSpec) :
    loadMetadata st specs = .ok ((liveAttrs st.attrs).map (blobOf st.descriptor) ++
      specs.mapIdx fun i _ => some (nonSegmentByPhysicalCount st.descriptor + i)) := by
  rw [loadMetadata, h.loadBlobIdx_eq]
  rfl

/-- The place of an extracted field in `blob_idx`. -/
theorem getElem?_extracted (st : TableState) {specs : List ExtractSpec} {i : ℕ}
    (hi : i < specs.length) :
    ((liveAttrs st.attrs).map (blobOf st.descriptor) ++ specs.mapIdx fun i _ =>
      some (nonSegmentByPhysicalCount st.descriptor + i))[(liveAttrs st.attrs).length + i]? =
        some (some (nonSegmentByPhysicalCount st.descriptor + i)) := by
  rw [List.getElem?_append_right (by simp)]
  simp [hi]

/-- The names of the numbered columns do not repeat. -/
theorem nodup_idxToCol (h : DriftsTo t s st old added) {specs : List ExtractSpec}
    (haligned : StatsAligned s st specs) :
    ((colIndex s (colNames st specs)).idxToCol.map Prod.fst).Nodup := by
  rw [idxToCol_colNames, List.map_append, List.map_map]
  rcases haligned with ⟨rfl, -⟩ | ⟨-, hextracted⟩
  · simpa [Function.comp_def] using h.nodup_storedLive
  · refine hextracted.names_nodup.sublist (.append (.refl _) ?_)
    have hsub := (List.filter_sublist (p := fun col : Text × DataType => decide (col.1 ∉ s.segmentBy))
      (l := specs.map fun spec => (spec.targetName, spec.targetType))).map Prod.fst
    rwa [List.map_map] at hsub

/-- Survivors that keep their places, under names that are their own, are numbered
by the colstats phase as they were written. -/
theorem colIndex_of_keepsPlaces (h : DriftsTo t s st old added) {specs : List ExtractSpec}
    (haligned : StatsAligned s st specs) (hplaces : KeepsPlaces st.descriptor) {w : ℕ}
    {p : Attr × Attr} (hw : (writtenPairs s t.attrs old)[w]? = some p)
    (hlive : p.2.dropped = false) :
    (colIndex s (colNames st specs)).idxToCol[w]? = some (p.2.name, p.2.dataType) ∧
      (colIndex s (colNames st specs)).colToIdx p.2.name = some w := by
  have hplace := h.keepsPlaces_iff.mp hplaces w p hw hlive
  have hlt := (List.getElem?_eq_some_iff.mp hplace).1
  have hcol : (colIndex s (colNames st specs)).idxToCol[w]? = some (p.2.name, p.2.dataType) := by
    rw [idxToCol_colNames, List.getElem?_append_left (by simpa using hlt), List.getElem?_map, hplace]
    rfl
  exact ⟨hcol,
    (colToIdx_eq_some_iff _ _ _ _).mpr (lastPlace_of_nodup (h.nodup_idxToCol haligned) hcol)⟩

/-- With places kept, the indexes of the survivors are below their number. -/
theorem lt_survivors (h : DriftsTo t s st old added) (hplaces : KeepsPlaces st.descriptor)
    {w : ℕ} {p : Attr × Attr} (hw : (writtenPairs s t.attrs old)[w]? = some p)
    (hlive : p.2.dropped = false) :
    w < ((writtenPairs s t.attrs old).filter fun p => !p.2.dropped).length := by
  have hplace := getElem?_filter_before (p := fun p : Attr × Attr => !p.2.dropped) hw
    (by simp [hlive])
  rw [(forall_before_eq_iff _).mpr (h.keepsPlaces_iff_pairwise.mp hplaces) w p hw (by simp [hlive])]
    at hplace
  exact (List.getElem?_eq_some_iff.mp hplace).1

theorem count_eq_written_iff (h : DriftsTo t s st old added) :
    nonSegmentByPhysicalCount st.descriptor = (t.written s).length ↔
      ∀ e ∈ st.descriptor, e.compressedColIdx.isSome = true → e.dropped = false := by
  rw [h.nonSegmentByPhysicalCount_eq, h.written_eq, List.length_map,
    List.length_filter_eq_length_iff]
  constructor
  · intro hall e he hsome
    obtain ⟨w, hw⟩ := Option.isSome_iff_exists.mp hsome
    obtain ⟨p, hp, -, -, hdropped⟩ := h.written_of_entry he hw
    have hlive := hall p (List.mem_of_getElem? hp)
    rw [hdropped]
    simpa using hlive
  · intro hall p hp
    obtain ⟨w, hw⟩ := List.mem_iff_getElem?.mp hp
    obtain ⟨e, he, hidx, -, -, hdropped⟩ := h.entry_of_written hw
    have hlive := hall e he (by simp [hidx])
    simp [← hdropped, hlive]

theorem keepsPlaces_of_none_dropped {descriptor : List DescriptorEntry}
    (hall : ∀ e ∈ descriptor, e.compressedColIdx.isSome = true → e.dropped = false) :
    KeepsPlaces descriptor := by
  apply List.pairwise_of_forall_mem_list
  intro e he _ _ hdropped
  obtain ⟨hmem, hsome⟩ := List.mem_filter.mp he
  rw [hall e hmem hsome] at hdropped
  cases hdropped

/-- The place at which the colstats phase finds a survivor. -/
theorem keepsPlaces_of_idxToCol (h : DriftsTo t s st old added)
    (hcols : ∀ e ∈ st.descriptor, e.dropped = false → ∀ w, e.compressedColIdx = some w →
      (colIndex s (colNames st [])).idxToCol[w]? = some (e.name, e.dataType)) :
    KeepsPlaces st.descriptor := by
  rw [h.keepsPlaces_iff]
  intro w p hw hlive
  obtain ⟨e, he, hidx, hname, -, hdropped⟩ := h.entry_of_written hw
  have hcol := hcols e he (hdropped.trans hlive) w hidx
  rw [idxToCol_colNames, List.map_nil, List.filter_nil, List.append_nil, List.getElem?_map] at hcol
  obtain ⟨a, ha, heq⟩ := Option.map_eq_some_iff.mp hcol
  have hnow := h.getElem?_storedLive hw hlive
  have hnames : a.name = p.2.name := (Prod.mk.inj heq).1.trans hname
  rw [ha, List.inj_on_of_nodup_map h.nodup_storedLive (List.mem_of_getElem? ha)
    (List.mem_of_getElem? hnow) hnames]

/-! ## Extracted fields -/

theorem none_added_iff (h : DriftsTo t s st old added) :
    (∀ a ∈ storedLive s st, ∃ e ∈ st.descriptor, e.attnum = a.attnum) ↔
      (liveAttrs added).filter s.stored = [] := by
  rw [List.filter_eq_nil_iff]
  constructor
  · intro hdescribed a ha hstored
    have hmem : a ∈ storedLive s st := by
      rw [h.storedLive_eq]
      exact List.mem_append_right _ (List.mem_filter.mpr ⟨ha, hstored⟩)
    obtain ⟨e, he, hattnum⟩ := hdescribed a hmem
    exact h.not_described_of_added ha e he hattnum
  · intro hnone a ha
    rw [h.storedLive_eq] at ha
    rcases List.mem_append.mp ha with hsurvivor | hadded
    · obtain ⟨p, hp, rfl⟩ := List.mem_map.mp hsurvivor
      obtain ⟨hzip, hdropped, -⟩ := mem_writtenPairs.mp (List.mem_filter.mp hp).1
      obtain ⟨idx, hmem, -⟩ := h.entry_mem (mem_describedPairs.mpr ⟨hzip, hdropped⟩)
      exact ⟨_, hmem, (h.same p hzip).attnum_eq.symm⟩
    · obtain ⟨hlive, hstored⟩ := List.mem_filter.mp hadded
      exact absurd hstored (hnone a hlive)

theorem length_storedLive (h : DriftsTo t s st old added) :
    (storedLive s st).length =
      nonSegmentByPhysicalCount st.descriptor + ((liveAttrs added).filter s.stored).length := by
  rw [h.storedLive_eq, List.length_append, List.length_map, h.nonSegmentByPhysicalCount_eq]

theorem length_storedLive_of_aligned (h : DriftsTo t s st old added) {specs : List ExtractSpec}
    (haligned : ExtractedAligned s st specs) : (storedLive s st).length = (t.written s).length := by
  rw [h.length_storedLive, h.count_eq_written_iff.mpr haligned.none_dropped,
    h.none_added_iff.mp haligned.none_added, List.length_nil, Nat.add_zero]

theorem extracted_of_aligned (h : DriftsTo t s st old added) {specs : List ExtractSpec}
    (hspecs : specs ≠ []) (haligned : ExtractedAligned s st specs) {i : ℕ} {spec : ExtractSpec}
    (hi : specs[i]? = some spec) :
    (colIndex s (colNames st specs)).colToIdx spec.targetName = some ((t.written s).length + i) ∧
      (colIndex s (colNames st specs)).idxToCol[(t.written s).length + i]? =
        some (spec.targetName, spec.targetType) := by
  have hall : (specs.map fun spec => (spec.targetName, spec.targetType)).filter (fun col =>
      decide (col.1 ∉ s.segmentBy)) = specs.map fun spec => (spec.targetName, spec.targetType) := by
    apply List.filter_eq_self.mpr
    intro col hcol
    obtain ⟨spec, hspec, rfl⟩ := List.mem_map.mp hcol
    simpa using haligned.not_segmentBy spec hspec
  have hcol : (colIndex s (colNames st specs)).idxToCol[(t.written s).length + i]? =
      some (spec.targetName, spec.targetType) := by
    rw [idxToCol_colNames, hall, ← h.length_storedLive_of_aligned haligned,
      List.getElem?_append_right (by simp), List.length_map, Nat.add_sub_cancel_left,
      List.getElem?_map, hi]
    rfl
  have hnodup := h.nodup_idxToCol (.inr ⟨hspecs, haligned⟩)
  exact ⟨(colToIdx_eq_some_iff _ _ _ _).mpr (lastPlace_of_nodup hnodup hcol), hcol⟩

/-- A stored column behind which no field of its name stands is numbered by its own
place: an extracted field with the last place of a name is none of the columns. -/
theorem extracted_place (st : TableState) {specs : List ExtractSpec} {spec : ExtractSpec}
    (hspec : spec ∈ specs) {n : ℕ}
    (hto : (colIndex s (colNames st specs)).colToIdx spec.targetName = some n)
    (hfree : spec.targetName ∉ s.segmentBy) : (storedLive s st).length ≤ n := by
  have hfield : (spec.targetName, spec.targetType) ∈
      (specs.map fun spec => (spec.targetName, spec.targetType)).filter fun col =>
        decide (col.1 ∉ s.segmentBy) :=
    List.mem_filter.mpr ⟨List.mem_map.mpr ⟨spec, hspec, rfl⟩, by simpa using hfree⟩
  obtain ⟨j, hj⟩ := List.mem_iff_getElem?.mp hfield
  obtain ⟨-, hmax⟩ := (colToIdx_eq_some_iff _ _ _ _).mp hto
  have hle := hmax ((storedLive s st).length + j) spec.targetType (by
    rw [idxToCol_colNames, List.getElem?_append_right (by simp), ← hj]
    simp)
  omega

theorem not_segmentBy_of_idxToCol {specs : List ExtractSpec} {n : ℕ} {col : Text × DataType}
    (hn : (colIndex s (colNames st specs)).idxToCol[n]? = some col) : col.1 ∉ s.segmentBy := by
  rw [idxToCol_colNames] at hn
  rcases List.mem_append.mp (List.mem_of_getElem? hn) with hmem | hmem
  · obtain ⟨a, ha, rfl⟩ := List.mem_map.mp hmem
    have hstored := (List.mem_filter.mp ha).2
    simpa [Settings.stored, Settings.isSegmentBy] using hstored
  · simpa using (List.mem_filter.mp hmem).2

/-- Where the extracted fields are found as they were written, none of the columns was
dropped or added, and the names are all different. -/
theorem aligned_of_extracted (h : DriftsTo t s st old added) {specs : List ExtractSpec}
    (hspecs : specs ≠ [])
    (hdropped : ∀ e ∈ st.descriptor, e.compressedColIdx.isSome = true → e.dropped = false)
    (hcols : ∀ e ∈ st.descriptor, e.dropped = false → ∀ w, e.compressedColIdx = some w →
      (colIndex s (colNames st specs)).colToIdx e.name = some w)
    (hstats : ∀ (i : ℕ) (spec : ExtractSpec), specs[i]? = some spec →
      (colIndex s (colNames st specs)).colToIdx spec.targetName = some ((t.written s).length + i) ∧
        (colIndex s (colNames st specs)).idxToCol[(t.written s).length + i]? =
          some (spec.targetName, spec.targetType)) :
    ExtractedAligned s st specs := by
  have hfree : ∀ spec ∈ specs, spec.targetName ∉ s.segmentBy := by
    intro spec hspec
    obtain ⟨i, hi⟩ := List.mem_iff_getElem?.mp hspec
    exact not_segmentBy_of_idxToCol (hstats i spec hi).2
  have hcount := h.count_eq_written_iff.mpr hdropped
  have hlength := h.length_storedLive
  obtain ⟨first, rest, rfl⟩ := List.exists_cons_of_ne_nil hspecs
  have hplace := extracted_place st List.mem_cons_self (hstats 0 first rfl).1
    (hfree first List.mem_cons_self)
  have hnone : (liveAttrs added).filter s.stored = [] := List.length_eq_zero_iff.mp (by omega)
  rw [hnone, List.length_nil, hcount] at hlength
  refine ⟨hdropped, h.none_added_iff.mpr hnone, ?_, hfree⟩
  rw [List.nodup_append]
  refine ⟨h.nodup_storedLive, ?_, ?_⟩
  · -- two fields of one name would have one number
    rw [List.nodup_iff_getElem?_ne_getElem?]
    intro i j hij hj heq
    rw [List.length_map] at hj
    have hi : i < (first :: rest).length := by omega
    rw [List.getElem?_map, List.getElem?_map, List.getElem?_eq_getElem hi,
      List.getElem?_eq_getElem hj, Option.map_some, Option.map_some, Option.some.injEq] at heq
    have hfirst := (hstats i _ (List.getElem?_eq_getElem hi)).1
    have hsecond := (hstats j _ (List.getElem?_eq_getElem hj)).1
    rw [heq, hsecond, Option.some.injEq] at hfirst
    omega
  · intro name hname target htarget heq
    obtain ⟨a, ha, rfl⟩ := List.mem_map.mp hname
    obtain ⟨spec, hspec, rfl⟩ := List.mem_map.mp htarget
    rw [h.storedLive_eq, hnone, List.append_nil] at ha
    obtain ⟨p, hp, rfl⟩ := List.mem_map.mp ha
    obtain ⟨w, hw⟩ := List.mem_iff_getElem?.mp (List.mem_filter.mp hp).1
    obtain ⟨e, he, hidx, hename, -, -⟩ := h.entry_of_written hw
    obtain ⟨i, hi⟩ := List.mem_iff_getElem?.mp hspec
    have hcol := hcols e he (hdropped e he (by simp [hidx])) w hidx
    have hlt := (List.getElem?_eq_some_iff.mp hw).1
    rw [hename, heq, (hstats i spec hi).1, Option.some.injEq, h.written_eq, List.length_map] at hcol
    omega

theorem statsIndexed_of_aligned (h : DriftsTo t s st old added) {specs : List ExtractSpec}
    (haligned : StatsAligned s st specs) :
    StatsIndexed s t st specs ((liveAttrs st.attrs).map (blobOf st.descriptor) ++
      specs.mapIdx fun i _ => some (nonSegmentByPhysicalCount st.descriptor + i)) := by
  have hplaces : KeepsPlaces st.descriptor := by
    rcases haligned with ⟨-, hplaces⟩ | ⟨-, hextracted⟩
    · exact hplaces
    · exact keepsPlaces_of_none_dropped hextracted.none_dropped
  have hcols : ∀ e ∈ st.descriptor, e.dropped = false → ∀ w, e.compressedColIdx = some w →
      (colIndex s (colNames st specs)).idxToCol[w]? = some (e.name, e.dataType) ∧
        (colIndex s (colNames st specs)).colToIdx e.name = some w := by
    intro e he hlive w hw
    obtain ⟨p, hp, hname, htype, hdropped⟩ := h.written_of_entry he hw
    rw [hname, htype]
    exact h.colIndex_of_keepsPlaces haligned hplaces hp (hdropped.symm.trans hlive)
  refine ⟨fun e he hlive w hw => (hcols e he hlive w hw).2,
    fun e he hlive w hw => (hcols e he hlive w hw).1, ?_, ?_, ?_⟩
  · intro w hw
    rw [h.numBlobCols_eq]
    rcases List.mem_append.mp hw with hw | hw
    · obtain ⟨a, ha, hblob⟩ := List.mem_map.mp hw
      obtain ⟨p, hp, rfl⟩ := (h.blobOf_eq_some_iff ha w).mp hblob
      have hlt := h.lt_survivors hplaces hp (by simpa using (List.mem_filter.mp ha).2)
      omega
    · obtain ⟨i, hi, heq⟩ := List.mem_mapIdx.mp hw
      have hcount := h.nonSegmentByPhysicalCount_eq
      rw [Option.some.injEq] at heq
      omega
  · intro i hi
    rw [getElem?_extracted st hi]
    rcases haligned with ⟨rfl, -⟩ | ⟨-, hextracted⟩
    · simp at hi
    · rw [h.count_eq_written_iff.mpr hextracted.none_dropped]
  · intro i spec hi
    rcases haligned with ⟨rfl, -⟩ | ⟨hspecs, hextracted⟩
    · cases hi
    · exact h.extracted_of_aligned hspecs hextracted hi

end DriftsTo

/-- After any history of column changes, `load_metadata` and the colstats phase
give every column the index it was written under exactly when nothing has moved. -/
theorem loadMetadata_statsIndexed_iff {t : Table} {s : Settings} {st : TableState}
    {changes : List ColumnChange} (hrun : applyChanges s (t.compressed s) changes = some st)
    (specs : List ExtractSpec) :
    (∃ blobIdx, loadMetadata st specs = .ok blobIdx ∧ StatsIndexed s t st specs blobIdx) ↔
      StatsAligned s st specs := by
  obtain ⟨old, added, h⟩ := driftsTo_applyChanges (driftsTo_compressed t s) hrun
  rw [h.loadMetadata_eq specs]
  constructor
  · rintro ⟨blobIdx, heq, hindexed⟩
    cases heq
    by_cases hspecs : specs = []
    · subst hspecs
      exact .inl ⟨rfl, h.keepsPlaces_of_idxToCol hindexed.idx_to_col⟩
    · -- the first extracted field tells how many columns were written
      have hpos : 0 < specs.length := List.length_pos_iff.mpr hspecs
      have hfirst := hindexed.extracted 0 hpos
      rw [DriftsTo.getElem?_extracted st hpos] at hfirst
      have hall := h.count_eq_written_iff.mp (by simpa using hfirst)
      exact .inr ⟨hspecs,
        h.aligned_of_extracted hspecs hall hindexed.col_to_idx hindexed.extracted_stats⟩
  · intro haligned
    exact ⟨_, rfl, h.statsIndexed_of_aligned haligned⟩

/-- Dropping the last column of the readings moves nothing. -/
theorem readings_statsIndexed_after_last_drop :
    ∃ blobIdx, loadMetadata (readingsAfter [.dropColumn "b".toList]) [] = .ok blobIdx ∧
      StatsIndexed readingsSettings readings (readingsAfter [.dropColumn "b".toList]) [] blobIdx := by
  have hrun : applyChanges readingsSettings (readings.compressed readingsSettings)
      [.dropColumn "b".toList] = some (readingsAfter [.dropColumn "b".toList]) := by decide
  exact (loadMetadata_statsIndexed_iff hrun []).mpr (.inl ⟨rfl, by decide⟩)

/-- With `a` dropped, the statistics of `b` are looked up under the index of `a`. -/
theorem readings_not_statsIndexed_after_drop :
    ¬ ∃ blobIdx, loadMetadata (readingsAfter [.dropColumn "a".toList]) [] = .ok blobIdx ∧
      StatsIndexed readingsSettings readings (readingsAfter [.dropColumn "a".toList]) [] blobIdx := by
  rintro ⟨blobIdx, -, hindexed⟩
  have hentry : (⟨3, "b".toList, .integer, -1, false, some 2, false⟩ : DescriptorEntry) ∈
      (readingsAfter [.dropColumn "a".toList]).descriptor := by decide
  have hcol := hindexed.col_to_idx _ hentry rfl 2 rfl
  revert hcol
  decide

end DeltaX.Schema
