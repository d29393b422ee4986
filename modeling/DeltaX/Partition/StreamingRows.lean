import DeltaX.Partition.CollectedRows
/-!
# The segments hold the rows of the partition

The streaming loop over columns runs in step with the loop over rows of
`DeltaX.Partition.Flush`, whose segments are known to hold the rows of the cursor.
-/

namespace DeltaX.Partition.Streaming

open DeltaX.Column Support.Wrapping

variable {plan : CompressPlan} {typedCols : List TypedColumn}

/-! ## The loop in step with the loop over rows -/

namespace CompressPlan

/-- The plan as a layout of the rows that the cursor has put in order. -/
def layout (plan : CompressPlan) : Layout (FetchedRow plan) (List (Option Text)) where
  hasSegmentBy := !plan.segColIndices.isEmpty
  segmentKey := FetchedRow.segValues
  cursorLe := fun _ _ => true
  orderLe := rowLe plan.orderColIndices
  segmentSize := plan.segmentSize
  segmentSize_pos := plan.segmentSize_pos
  jsonExtract := false
  -- nothing is read back while rows are written
  read := id
  restore := some

theorem length_segColIndices (plan : CompressPlan) :
    plan.segColIndices.length = (plan.columns.filter ColumnMeta.isSegmentBy).length := by
  calc plan.segColIndices.length
      = ((plan.columns.zipIdx.map Prod.fst).filter ColumnMeta.isSegmentBy).length := by
        rw [segColIndices, List.length_map, List.filter_map, List.length_map]
        rfl
    _ = (plan.columns.filter ColumnMeta.isSegmentBy).length := by rw [List.zipIdx_map_fst]

theorem isSegmentBy_eq_false {plan : CompressPlan} (h : plan.segColIndices.isEmpty = true) :
    ∀ c ∈ plan.columns, c.isSegmentBy = false := by
  have hlength := plan.length_segColIndices
  rw [List.isEmpty_iff.mp h, List.length_nil, eq_comm, List.length_eq_zero_iff,
    List.filter_eq_nil_iff] at hlength
  exact fun c hc => Bool.eq_false_iff.mpr (hlength c hc)

end CompressPlan

theorem FetchedRow.segValues_eq_nil_iff (r : FetchedRow plan) :
    r.segValues = [] ↔ plan.segColIndices.isEmpty = true := by
  rw [← List.length_eq_zero_iff, r.length_segValues, ← plan.length_segColIndices,
    List.length_eq_zero_iff, List.isEmpty_iff]

variable {st : Stream} {f : Flush (FetchedRow plan) (List (Option Text))} {total : ℕ}

/-- The variables of the loop hold what the loop over rows has collected and written. -/
structure Follows (st : Stream) (f : Flush (FetchedRow plan) (List (Option Text)))
    (total : ℕ) : Prop where
  collects : Collects plan.kindOf plan.columns st.typedCols (f.rows.map FetchedRow.cells)
  rowsInSegment_eq : st.rowsInSegment = f.rows.length
  nextSegmentId_eq : st.nextSegmentId = f.nextSegmentId
  current_eq : f.currentSegValues =
    if st.currentSegValues.isEmpty then none else some st.currentSegValues
  current_of_none : plan.segColIndices.isEmpty = true → st.currentSegValues = []
  values_eq : ∀ r ∈ f.rows, r.segValues = st.currentSegValues
  stores : List.Forall₂ Stores st.segments f.segments
  totalRows_eq : st.totalRows = total

theorem follows_init (plan : CompressPlan) :
    Follows (.init plan) (⟨[], none, 1, []⟩ : Flush (FetchedRow plan) (List (Option Text))) 0 where
  collects := collects_new _ _
  rowsInSegment_eq := rfl
  nextSegmentId_eq := rfl
  current_eq := rfl
  current_of_none := fun _ => rfl
  values_eq := fun r hr => by cases hr
  stores := .nil
  totalRows_eq := rfl

def sortedRows (f : Flush (FetchedRow plan) (List (Option Text))) : List (FetchedRow plan) :=
  if !plan.segColIndices.isEmpty then f.rows
  else f.rows.mergeSort (rowLe plan.orderColIndices)

theorem sortedRows_perm (f : Flush (FetchedRow plan) (List (Option Text))) :
    (sortedRows f).Perm f.rows := by
  unfold sortedRows
  split
  · exact .refl _
  · exact List.mergeSort_perm _ _

theorem Follows.sorted (h : Follows st f total) :
    ∃ typedCols, st.sorted plan = some typedCols ∧
      Collects plan.kindOf plan.columns typedCols ((sortedRows f).map FetchedRow.cells) := by
  unfold Stream.sorted sortedRows
  by_cases hnone : plan.segColIndices.isEmpty = true
  · rw [if_pos hnone, if_neg (by simp [hnone]), h.rowsInSegment_eq]
    exact sortTypedColumns_collects (CompressPlan.isSegmentBy_eq_false hnone) h.collects
  · rw [if_neg hnone, if_pos (by simp [hnone])]
    exact ⟨st.typedCols, rfl, h.collects⟩

theorem Follows.flushChunks (h : Follows st f total)
    (hcols : Collects plan.kindOf plan.columns typedCols
      ((sortedRows f).map FetchedRow.cells)) :
    ∃ st', st.flushChunks plan typedCols = some st' ∧
      Follows st' (f.flush plan.layout) total := by
  have hlength : (sortedRows f).length = st.rowsInSegment := by
    rw [(sortedRows_perm f).length_eq, h.rowsInSegment_eq]
  have hvalues : ∀ r ∈ sortedRows f, r.segValues = st.currentSegValues :=
    fun r hr => h.values_eq r ((sortedRows_perm f).mem_iff.mp hr)
  obtain ⟨out, hout, hstores, hnext⟩ :=
    flushWithSplitting_stores hcols hvalues (sortedRows f).length 0 st.nextSegmentId
  rw [List.drop_zero, h.nextSegmentId_eq] at hstores hnext
  rw [hlength] at hout
  refine ⟨_, by simp only [Stream.flushChunks, hout, Option.bind_eq_bind, Option.bind_some]; rfl,
    ?_⟩
  exact {
    collects := collects_new _ _
    rowsInSegment_eq := rfl
    nextSegmentId_eq := hnext
    current_eq := h.current_eq
    current_of_none := h.current_of_none
    values_eq := fun r hr => by cases hr
    stores := List.rel_append h.stores hstores
    totalRows_eq := h.totalRows_eq }

/-- Rows that fit are written as one segment. -/
theorem flushWithSplitting_of_length_le {ρ : Type*} {size : ℕ} {rows : List ρ} (next : ℤ)
    (hne : rows ≠ []) (hle : rows.length ≤ size) :
    Partition.flushWithSplitting size rows.length next rows =
      ([⟨next, rows⟩], wrapI32 (next + 1)) := by
  cases rows with
  | nil => exact absurd rfl hne
  | cons r rows =>
      have hrest : (r :: rows).drop size = [] := List.drop_of_length_le hle
      rw [List.length_cons, Partition.flushWithSplitting, if_neg (by simp), hrest,
        List.take_of_length_le hle]
      cases rows.length <;> rfl

theorem Follows.flushFull (h : Follows st f total) (hfull : f.rows.length = plan.segmentSize) :
    ∃ st', st.flushFull plan = some st' ∧ Follows st' (f.flush plan.layout) total := by
  obtain ⟨typedCols, hsorted, hcols⟩ := h.sorted
  have hlength : (sortedRows f).length = plan.segmentSize := by
    rw [(sortedRows_perm f).length_eq, hfull]
  have hpos := plan.segmentSize_pos
  have hlt := plan.segmentSize_lt
  have hne : sortedRows f ≠ [] := by
    rw [← List.length_pos_iff]
    omega
  have hout := flushWithSplitting_of_length_le st.nextSegmentId hne hlength.le
  have hseg := flushSegmentMetadata_stores hcols
    (fun r hr => h.values_eq r ((sortedRows_perm f).mem_iff.mp hr)) hne (by omega)
    st.nextSegmentId
  rw [hlength, ← hfull, ← h.rowsInSegment_eq] at hseg
  rw [h.nextSegmentId_eq] at hout
  refine ⟨_, by simp only [Stream.flushFull, hsorted, Option.bind_eq_bind, Option.bind_some]; rfl,
    ?_⟩
  exact {
    collects := collects_new _ _
    rowsInSegment_eq := rfl
    nextSegmentId_eq := by
      rw [h.nextSegmentId_eq]
      exact (congrArg Prod.snd hout).symm
    current_eq := h.current_eq
    current_of_none := h.current_of_none
    values_eq := fun r hr => by cases hr
    stores := by
      apply List.rel_append h.stores
      show List.Forall₂ Stores _ (Partition.flushWithSplitting plan.segmentSize
        (sortedRows f).length f.nextSegmentId (sortedRows f)).1
      rw [hout, ← h.nextSegmentId_eq]
      exact .cons hseg .nil
    totalRows_eq := h.totalRows_eq }

theorem Follows.flushGroup (h : Follows st f total) (hseg : plan.segColIndices.isEmpty = false) :
    ∃ st', st.flushGroup plan = some st' ∧
      Follows st' (if f.rows.isEmpty then f else f.flush plan.layout) total := by
  unfold Stream.flushGroup
  rw [h.rowsInSegment_eq]
  by_cases hempty : f.rows = []
  · rw [if_neg (by simp [hempty]), if_pos (by simp [hempty])]
    exact ⟨st, rfl, h⟩
  · rw [if_pos (List.length_pos_iff.mpr hempty), if_neg (by simp [hempty])]
    apply h.flushChunks
    rw [sortedRows, if_pos (by simp [hseg])]
    exact h.collects

/-- No row has been collected before the first segment-by values are known. -/
theorem Follows.rows_eq_nil (h : Follows st f total) (hseg : plan.segColIndices.isEmpty = false)
    (hcurrent : st.currentSegValues = []) : f.rows = [] := by
  apply List.eq_nil_iff_forall_not_mem.mpr
  intro r hr
  have hnil := r.segValues_eq_nil_iff.mp ((h.values_eq r hr).trans hcurrent)
  simp [hseg] at hnil

section boundary

variable (f : Flush (FetchedRow plan) (List (Option Text))) (r : FetchedRow plan)

theorem boundary_of_noSegmentBy (hnone : plan.segColIndices.isEmpty = true) :
    f.boundary plan.layout r = f := by
  simp [Flush.boundary, CompressPlan.layout, hnone]

theorem boundary_of_none (hseg : plan.segColIndices.isEmpty = false)
    (hcurrent : f.currentSegValues = none) :
    f.boundary plan.layout r = { f with currentSegValues := some r.segValues } := by
  simp [Flush.boundary, CompressPlan.layout, hseg, hcurrent]

theorem boundary_of_same (hcurrent : f.currentSegValues = some r.segValues) :
    f.boundary plan.layout r = f := by
  simp [Flush.boundary, CompressPlan.layout, hcurrent]

theorem boundary_of_other (hseg : plan.segColIndices.isEmpty = false)
    {current : List (Option Text)} (hcurrent : f.currentSegValues = some current)
    (hother : r.segValues ≠ current) :
    f.boundary plan.layout r =
      { (if f.rows.isEmpty then f else f.flush plan.layout) with
        currentSegValues := some r.segValues } := by
  simp only [Flush.boundary, hcurrent]
  rw [if_pos (by simp [CompressPlan.layout, hseg])]
  exact if_neg hother

end boundary

/-- New current values keep the rest in step, when no rows are left. -/
theorem Follows.replace (h : Follows st f total) (hrows : f.rows = [])
    (hseg : plan.segColIndices.isEmpty = false) (r : FetchedRow plan) :
    Follows { st with currentSegValues := r.segValues }
      { f with currentSegValues := some r.segValues } total := by
  have hkey : r.segValues.isEmpty = false := by
    rw [List.isEmpty_eq_false_iff, Ne, r.segValues_eq_nil_iff, hseg]
    exact Bool.false_ne_true
  exact { h with
    current_eq := by simp [hkey]
    current_of_none := fun hnone => absurd hnone (by simp [hseg])
    values_eq := fun r' hr' => by simp [hrows] at hr' }

/-- The boundary check leaves rows with the segment-by values of the row only. -/
theorem Follows.boundary (h : Follows st f total) (r : FetchedRow plan) :
    ∃ st', st.boundary r = some st' ∧ Follows st' (f.boundary plan.layout r) total ∧
      r.segValues = st'.currentSegValues := by
  unfold Stream.boundary
  by_cases hnone : plan.segColIndices.isEmpty = true
  · rw [if_pos hnone, boundary_of_noSegmentBy f r hnone]
    refine ⟨st, rfl, h, ?_⟩
    rw [h.current_of_none hnone]
    exact r.segValues_eq_nil_iff.mpr hnone
  · have hseg : plan.segColIndices.isEmpty = false := Bool.eq_false_iff.mpr hnone
    have hcurrent := h.current_eq
    rw [if_neg hnone]
    by_cases hunset : st.currentSegValues.isEmpty = true
    · rw [if_pos hunset] at hcurrent ⊢
      rw [boundary_of_none f r hseg hcurrent]
      exact ⟨_, rfl, h.replace (h.rows_eq_nil hseg (List.isEmpty_iff.mp hunset)) hseg r, rfl⟩
    · rw [if_neg hunset] at hcurrent ⊢
      by_cases hsame : r.segValues = st.currentSegValues
      · rw [if_neg (not_not_intro hsame), boundary_of_same f r (hcurrent.trans (by rw [hsame]))]
        exact ⟨st, rfl, h, hsame⟩
      · rw [if_pos hsame, boundary_of_other f r hseg hcurrent hsame]
        obtain ⟨st', hflush, hfollows⟩ := h.flushGroup hseg
        refine ⟨_, by rw [hflush]; rfl, hfollows.replace ?_ hseg r, rfl⟩
        split
        · rename_i hempty
          exact List.isEmpty_iff.mp hempty
        · rfl

/-- The row is appended to the columns and to the rows. -/
theorem Follows.collect (h : Follows st f total) {r : FetchedRow plan}
    (hvalues : r.segValues = st.currentSegValues) :
    ∃ st', st.collect r = some st' ∧
      Follows st' { f with rows := f.rows ++ [r] } (total + 1) := by
  obtain ⟨typedCols, happend, hcollects⟩ := h.collects.append r.typed
  refine ⟨_, by rw [Stream.collect, happend]; rfl, ?_⟩
  exact {
    collects := by simpa using hcollects
    rowsInSegment_eq := by simp [h.rowsInSegment_eq]
    nextSegmentId_eq := h.nextSegmentId_eq
    current_eq := h.current_eq
    current_of_none := h.current_of_none
    values_eq := by
      intro r' hr'
      rcases List.mem_append.mp hr' with hr' | hr'
      · exact h.values_eq r' hr'
      · rw [List.mem_singleton.mp hr']
        exact hvalues
    stores := h.stores
    totalRows_eq := by simp [h.totalRows_eq] }

theorem length_boundary_le (f : Flush (FetchedRow plan) (List (Option Text)))
    (r : FetchedRow plan) : (f.boundary plan.layout r).rows.length ≤ f.rows.length := by
  unfold Flush.boundary
  split
  · split
    · exact le_rfl
    · split
      · exact le_rfl
      · show (if f.rows.isEmpty then f else f.flush plan.layout).rows.length ≤ _
        split
        · exact le_rfl
        · exact Nat.zero_le _
  · exact le_rfl

/-- One row, and the collected rows stay fewer than a segment takes. -/
theorem Follows.append (h : Follows st f total) (hlt : f.rows.length < plan.segmentSize)
    (r : FetchedRow plan) :
    ∃ st', st.append r = some st' ∧ Follows st' (f.append plan.layout r) (total + 1) ∧
      (f.append plan.layout r).rows.length < plan.segmentSize := by
  obtain ⟨st₁, hboundary, h₁, hvalues⟩ := h.boundary r
  obtain ⟨st₂, hcollect, h₂⟩ := h₁.collect hvalues
  have hle := length_boundary_le f r
  have hrows := h₂.rowsInSegment_eq
  simp only [List.length_append, List.length_singleton] at hrows
  have hstep : st.append r =
      if plan.segmentSize ≤ st₂.rowsInSegment then st₂.flushFull plan else some st₂ := by
    simp only [Stream.append, hboundary, hcollect, Option.bind_eq_bind, Option.bind_some]
  have habs : f.append plan.layout r =
      if plan.segmentSize ≤ st₂.rowsInSegment then
        ({ f.boundary plan.layout r with
          rows := (f.boundary plan.layout r).rows ++ [r] } : Flush _ _).flush plan.layout
      else { f.boundary plan.layout r with rows := (f.boundary plan.layout r).rows ++ [r] } := by
    rw [hrows, Flush.append]
    simp only [List.length_append, List.length_singleton]
    rfl
  rw [hstep, habs]
  by_cases hfull : plan.segmentSize ≤ st₂.rowsInSegment
  · rw [if_pos hfull, if_pos hfull]
    obtain ⟨st₃, hflush, h₃⟩ := h₂.flushFull
      (by simp only [List.length_append, List.length_singleton]; omega)
    exact ⟨st₃, hflush, h₃, plan.segmentSize_pos⟩
  · rw [if_neg hfull, if_neg hfull]
    refine ⟨st₂, rfl, h₂, ?_⟩
    simp only [List.length_append, List.length_singleton]
    omega

/-- A run of rows. -/
theorem Follows.foldlM (cursor : List (FetchedRow plan)) (h : Follows st f total)
    (hlt : f.rows.length < plan.segmentSize) :
    ∃ st', cursor.foldlM Stream.append st = some st' ∧
      Follows st' (cursor.foldl (Flush.append plan.layout) f) (total + cursor.length) := by
  induction cursor generalizing st f total with
  | nil => exact ⟨st, rfl, h⟩
  | cons r cursor ih =>
      obtain ⟨st₁, happend, h₁, hlt₁⟩ := h.append hlt r
      obtain ⟨st₂, hrest, h₂⟩ := ih h₁ hlt₁
      refine ⟨st₂, by simp [happend, hrest], ?_⟩
      rw [List.length_cons, Nat.add_comm cursor.length 1, ← Nat.add_assoc]
      exact h₂

theorem fetchLoop_eq_foldlM (fuel : ℕ) (cursor : List (FetchedRow plan)) (st : Stream)
    (hfuel : cursor.length < fuel) :
    fetchLoop fuel cursor st = cursor.foldlM Stream.append st := by
  induction fuel generalizing cursor st with
  | zero => omega
  | succ fuel ih =>
      have hpos := plan.segmentSize_pos
      unfold fetchLoop
      by_cases hempty : cursor = []
      · simp [hempty]
      · have hlength := List.length_pos_iff.mpr hempty
        have hbatch : (cursor.take plan.segmentSize).isEmpty = false := by
          rw [List.isEmpty_eq_false_iff, Ne, List.take_eq_nil_iff]
          simp [hempty]
          omega
        simp only [hbatch, Bool.false_eq_true, if_false, List.length_take]
        by_cases hlast : min plan.segmentSize cursor.length < plan.segmentSize
        · have htake : cursor.take plan.segmentSize = cursor :=
            List.take_of_length_le (by omega)
          simp only [hlast, if_true, htake]
          cases cursor.foldlM Stream.append st <;> rfl
        · simp only [hlast, if_false]
          calc ((cursor.take plan.segmentSize).foldlM Stream.append st >>= fun st' =>
                fetchLoop fuel (cursor.drop plan.segmentSize) st')
              = ((cursor.take plan.segmentSize).foldlM Stream.append st >>= fun st' =>
                (cursor.drop plan.segmentSize).foldlM Stream.append st') := by
                congr 1
                funext st'
                exact ih _ st' (by rw [List.length_drop]; omega)
            _ = cursor.foldlM Stream.append st := by
                rw [← List.foldlM_append, List.take_append_drop]

/-- The rows that are left are written at the end. -/
theorem Follows.finish (h : Follows st f total) :
    ∃ st', st.finish plan = some st' ∧
      Follows st' (if f.rows.isEmpty then f else f.flush plan.layout) total := by
  unfold Stream.finish
  rw [h.rowsInSegment_eq]
  by_cases hempty : f.rows = []
  · rw [if_neg (by simp [hempty]), if_pos (by simp [hempty])]
    exact ⟨st, rfl, h⟩
  · rw [if_pos (List.length_pos_iff.mpr hempty), if_neg (by simp [hempty])]
    obtain ⟨typedCols, hsorted, hcols⟩ := h.sorted
    obtain ⟨st', hflush, hfollows⟩ := h.flushChunks hcols
    exact ⟨st', by rw [hsorted]; exact hflush, hfollows⟩

/-! ## Results -/

theorem cursorRows_perm (cursorLe : FetchedRow plan → FetchedRow plan → Bool)
    (rows : List (FetchedRow plan)) : (cursorRows cursorLe rows).Perm rows := by
  unfold cursorRows
  split
  · exact .refl _
  · exact List.mergeSort_perm _ _

theorem segmentRows_layout (next : ℤ) (cursor : List (FetchedRow plan)) :
    segmentRows plan.layout next cursor =
      (if (cursor.foldl (Flush.append plan.layout) ⟨[], none, next, []⟩).rows.isEmpty then
        cursor.foldl (Flush.append plan.layout) ⟨[], none, next, []⟩
      else (cursor.foldl (Flush.append plan.layout) ⟨[], none, next, []⟩).flush
        plan.layout).segments := by
  have hcursor : cursor.mergeSort plan.layout.cursorLe = cursor :=
    List.mergeSort_of_pairwise (List.pairwise_of_forall fun _ _ => rfl)
  unfold segmentRows
  rw [hcursor, ite_self]

/-- The segments that are written store those of the loop over rows. -/
theorem compressPartitionStreaming_stores
    (cursorLe : FetchedRow plan → FetchedRow plan → Bool) (rows : List (FetchedRow plan)) :
    ∃ segments, compressPartitionStreaming cursorLe rows = some (segments, rows.length) ∧
      List.Forall₂ Stores segments (segmentRows plan.layout 1 (cursorRows cursorLe rows)) := by
  obtain ⟨st₁, hloop, h₁⟩ := (follows_init plan).foldlM (cursorRows cursorLe rows)
    plan.segmentSize_pos
  obtain ⟨st₂, hfinish, h₂⟩ := h₁.finish
  have htotal : st₂.totalRows = rows.length := by
    rw [h₂.totalRows_eq, (cursorRows_perm cursorLe rows).length_eq, Nat.zero_add]
  refine ⟨st₂.segments, ?_, ?_⟩
  · have hfetch := fetchLoop_eq_foldlM ((cursorRows cursorLe rows).length + 1)
      (cursorRows cursorLe rows) (.init plan) (Nat.lt_succ_self _)
    simp only [compressPartitionStreaming, hfetch, hloop, hfinish, htotal, Option.bind_eq_bind,
      Option.bind_some]
  · rw [segmentRows_layout]
    exact h₂.stores

def collectRows (rows : List (FetchedRow plan)) : Option (List TypedColumn) :=
  rows.foldlM (fun typedCols r => appendRowToColumns plan.kindOf plan.columns r.cells typedCols)
    plan.initTypedColumns

theorem collectRows_collects (rows : List (FetchedRow plan)) :
    ∃ typedCols, collectRows rows = some typedCols ∧
      Collects plan.kindOf plan.columns typedCols (rows.map FetchedRow.cells) := by
  induction rows using List.reverseRecOn with
  | nil => exact ⟨_, rfl, collects_new _ _⟩
  | append_singleton rows r ih =>
      obtain ⟨typedCols, hcols, hcollects⟩ := ih
      obtain ⟨typedCols', happend, hcollects'⟩ := hcollects.append r.typed
      refine ⟨typedCols', ?_, by simpa using hcollects'⟩
      unfold collectRows at hcols ⊢
      rw [List.foldlM_append, hcols]
      simpa using happend

theorem flushWithSplitting_collectRows {rows : List (FetchedRow plan)}
    {segValues : List (Option Text)} (hvalues : ∀ r ∈ rows, r.segValues = segValues) (next : ℤ) :
    ∃ typedCols out groups, collectRows rows = some typedCols ∧
      flushWithSplitting plan typedCols segValues rows.length rows.length 0 next = some out ∧
      List.Forall₂ Stores out.1 groups ∧
      Writes plan.segmentSize next rows groups := by
  obtain ⟨typedCols, hcols, hcollects⟩ := collectRows_collects rows
  obtain ⟨out, hout, hstores, -⟩ :=
    flushWithSplitting_stores hcollects hvalues rows.length 0 next
  rw [List.drop_zero] at hstores
  exact ⟨typedCols, out, _, hcols, hout, hstores,
    (flushWithSplitting_writes plan.segmentSize_pos rows.length next le_rfl).1⟩

theorem filterMap_getElem?_range {α : Type*} (xs : List α) :
    ((List.range xs.length).filterMap fun i => xs[i]?) = xs := by
  have hsorted := filterMap_mergeSort_range xs (r := fun _ _ => true) (s := fun _ _ => true)
    (fun _ _ _ _ _ _ => rfl)
  rwa [List.mergeSort_of_pairwise (List.pairwise_of_forall fun _ _ => rfl),
    List.mergeSort_of_pairwise (List.pairwise_of_forall fun _ _ => rfl)] at hsorted

theorem exists_mapM_eq_some {α β : Type*} {f : α → Option β} {R : α → β → Prop} {xs : List α}
    (h : ∀ x ∈ xs, ∃ y, f x = some y ∧ R x y) :
    ∃ ys, xs.mapM f = some ys ∧ List.Forall₂ R xs ys := by
  induction xs with
  | nil => exact ⟨[], rfl, .nil⟩
  | cons x xs ih =>
      obtain ⟨y, hy, hR⟩ := h x (by simp)
      obtain ⟨ys, hys, hRs⟩ := ih fun x' hx' => h x' (by simp [hx'])
      exact ⟨y :: ys, by simp [hy, hys], .cons hR hRs⟩

theorem sortTypedColumns_permutes (orderColIndices : List ℕ) {numRows : ℕ}
    (hlength : ∀ typedCol ∈ typedCols, typedCol.cells.length = numRows) :
    ∃ (perm : List ℕ) (typedCols' : List TypedColumn), perm.Perm (List.range numRows) ∧
      sortTypedColumns typedCols orderColIndices numRows = some typedCols' ∧
      List.Forall₂ (fun typedCol typedCol' : TypedColumn =>
        typedCol'.cells = perm.filterMap fun i => typedCol.cells[i]?) typedCols typedCols' := by
  unfold sortTypedColumns
  split
  · refine ⟨List.range numRows, typedCols, .refl _, rfl, List.forall₂_same.mpr ?_⟩
    intro typedCol hmem
    rw [← hlength typedCol hmem]
    exact (filterMap_getElem?_range typedCol.cells).symm
  · have hperm := sortPerm_perm typedCols orderColIndices numRows
    have happly : ∀ typedCol ∈ typedCols, ∃ typedCol',
        typedCol.applyPermutation (sortPerm typedCols orderColIndices numRows) =
          some typedCol' ∧
        typedCol'.cells = (sortPerm typedCols orderColIndices numRows).filterMap
          fun i => typedCol.cells[i]? := by
      intro typedCol hmem
      have hlt : ∀ i ∈ sortPerm typedCols orderColIndices numRows,
          i < typedCol.cells.length := by
        intro i hi
        rw [hlength typedCol hmem]
        exact List.mem_range.mp (hperm.mem_iff.mp hi)
      obtain ⟨typedCol', happly, hcells, -⟩ := TypedColumn.applyPermutation_spec typedCol hlt
      exact ⟨typedCol', happly, hcells⟩
    obtain ⟨typedCols', hmap, hcells⟩ := exists_mapM_eq_some happly
    exact ⟨_, typedCols', hperm, hmap, hcells⟩

/-- Compression keeps the rows: the segments store groups of the input rows that are the
input together, each group of at most a segment's size and under the segment-by values of
its rows.  The same holds for any rows that are split, all columns of a segment are sorted
by one permutation, and a stored row is the stored form of one row only. -/
theorem compressPartitionStreaming_keeps_rows (plan : CompressPlan)
    (cursorLe : FetchedRow plan → FetchedRow plan → Bool) (rows : List (FetchedRow plan)) :
    (∃ segments groups,
      compressPartitionStreaming cursorLe rows = some (segments, rows.length) ∧
      List.Forall₂ Stores segments groups ∧
      (groups.flatMap Segment.rows).Perm rows ∧
      ∀ group ∈ groups, 1 ≤ group.rows.length ∧ group.rows.length ≤ plan.segmentSize) ∧
    (∀ (segValues : List (Option Text)) (next : ℤ), (∀ r ∈ rows, r.segValues = segValues) →
      ∃ typedCols out groups, collectRows rows = some typedCols ∧
        flushWithSplitting plan typedCols segValues rows.length rows.length 0 next = some out ∧
        List.Forall₂ Stores out.1 groups ∧
        (groups.flatMap Segment.rows).Perm rows ∧
        ∀ group ∈ groups, 1 ≤ group.rows.length ∧ group.rows.length ≤ plan.segmentSize) ∧
    (∀ (typedCols : List TypedColumn) (orderColIndices : List ℕ) (numRows : ℕ),
      (∀ typedCol ∈ typedCols, typedCol.cells.length = numRows) →
      ∃ (perm : List ℕ) (typedCols' : List TypedColumn), perm.Perm (List.range numRows) ∧
        sortTypedColumns typedCols orderColIndices numRows = some typedCols' ∧
        List.Forall₂ (fun typedCol typedCol' : TypedColumn =>
          typedCol'.cells = perm.filterMap fun i => typedCol.cells[i]?) typedCols typedCols') ∧
    Function.Injective (FetchedRow.stored : FetchedRow plan → List (Option Stored)) := by
  refine ⟨?_, ?_, ?_, FetchedRow.stored_injective⟩
  · obtain ⟨segments, hcompress, hstores⟩ := compressPartitionStreaming_stores cursorLe rows
    have hwrites := segmentRows_writes plan.layout 1 (cursorRows cursorLe rows)
    exact ⟨segments, _, hcompress, hstores,
      hwrites.rows_perm.trans (cursorRows_perm cursorLe rows), hwrites.sizes⟩
  · intro segValues next hvalues
    obtain ⟨typedCols, out, groups, hcols, hout, hstores, hwrites⟩ :=
      flushWithSplitting_collectRows hvalues next
    exact ⟨typedCols, out, groups, hcols, hout, hstores, hwrites.rows_perm, hwrites.sizes⟩
  · intro typedCols orderColIndices numRows hlength
    exact sortTypedColumns_permutes orderColIndices hlength

def readingsPlan : CompressPlan where
  forceTextFallback := false
  columns := [⟨"ts".toList, .timestamptz, false, true⟩, ⟨"device".toList, .text, true, false⟩]
  segmentBy := ["device".toList]
  orderBy := ["ts".toList]
  segmentSize := 2
  segmentSize_pos := by decide
  segmentSize_lt := by decide

def reading (usec : BitVec 64) (device : Text) : FetchedRow readingsPlan where
  cells := [some (.timestamptz usec), some (.text device)]
  typed := by
    refine .cons ?_ (.cons ?_ .nil) <;> rintro v ⟨⟩ <;> rfl

theorem compressPartitionStreaming_keeps_readings :
    ∃ typedCols out groups,
      collectRows [reading 3 "a".toList, reading 1 "a".toList, reading 2 "a".toList] =
        some typedCols ∧
      flushWithSplitting readingsPlan typedCols [some "a".toList] 3 3 0 1 = some out ∧
      List.Forall₂ Stores out.1 groups ∧
      (groups.flatMap Segment.rows).Perm
        [reading 3 "a".toList, reading 1 "a".toList, reading 2 "a".toList] ∧
      ∀ group ∈ groups, 1 ≤ group.rows.length ∧ group.rows.length ≤ 2 :=
  (compressPartitionStreaming_keeps_rows readingsPlan (fun _ _ => true)
    [reading 3 "a".toList, reading 1 "a".toList, reading 2 "a".toList]).2.1
    [some "a".toList] 1 (by decide)

end DeltaX.Partition.Streaming
