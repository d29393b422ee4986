import DeltaX.Copy.Backfill
/-!
# Loading rows into partitions

Whatever the loader, the rows that a partition is fed are cut into segments with
consecutive ids, and the companion tables give them back when the COPY ends.
-/

namespace DeltaX.Copy.Loading

open Column DeltaX.Partition DeltaX.Partition.Streaming Support.Wrapping Routing Backfill

variable {state : BackfillState}

/-! ## Cuts -/

def segmentsOf (cuts : List state.Batch) : List StoredSegment :=
  cuts.mapIdx fun i c => storeSegment (sort c state.plan.orderColIndices) (wrapI32 (i + 1))

theorem segmentsOf_concat (cuts : List state.Batch) (c : state.Batch) :
    segmentsOf (cuts ++ [c]) = segmentsOf cuts ++
      [storeSegment (sort c state.plan.orderColIndices) (wrapI32 (cuts.length + 1))] := by
  rw [segmentsOf, List.mapIdx_concat, segmentsOf]

theorem wrapI32_wrapI32_add_one (n : ℤ) : wrapI32 (wrapI32 n + 1) = wrapI32 (n + 1) :=
  Int.bmod_add_bmod

theorem wrapI32_injOn {i j : ℕ} (hi : i < 2 ^ 32) (hj : j < 2 ^ 32)
    (h : wrapI32 (i + 1) = wrapI32 (j + 1)) : i = j := by
  have hdvd := Int.dvd_iff_bmod_eq_zero.mpr (Int.bmod_eq_bmod_iff_bmod_sub_eq_zero.mp h)
  norm_num at hdvd
  omega

theorem nodup_segmentIds {cuts : List state.Batch} (hlt : cuts.length ≤ 2 ^ 32) :
    ((segmentsOf cuts).map StoredSegment.segmentId).Nodup := by
  have hids : (segmentsOf cuts).map StoredSegment.segmentId =
      (List.range cuts.length).map fun i : ℕ => wrapI32 (i + 1) := by
    apply List.ext_getElem
    · simp [segmentsOf]
    · intro i _ _
      simp [segmentsOf, storeSegment, flushSegmentMetadata]
  rw [hids]
  apply List.Nodup.map_on _ List.nodup_range
  intro i hi j hj h
  rw [List.mem_range] at hi hj
  exact wrapI32_injOn (by omega) (by omega) h

theorem length_le_flatMap {cuts : List state.Batch} (hne : ∀ c ∈ cuts, 0 < c.numRows) :
    cuts.length ≤ (cuts.flatMap Columns.rows).length := by
  induction cuts with
  | nil => exact Nat.zero_le _
  | cons c cuts ih =>
      have hc := hne c List.mem_cons_self
      have hrest := ih fun c' hc' => hne c' (List.mem_cons_of_mem c hc')
      rw [List.length_cons, List.flatMap_cons, List.length_append, Columns.length_rows]
      omega

theorem numbered_segmentsOf {cuts : List state.Batch} {seg : StoredSegment}
    (h : seg ∈ segmentsOf cuts) : Numbered state.plan.columns seg := by
  obtain ⟨i, hi, rfl⟩ := List.mem_mapIdx.mp h
  exact numbered_storeSegment _ _

/-! ## The tables -/

/-- The tables hold the segments of these cuts. -/
structure Published (t : Companions) (cuts : List state.Batch) : Prop where
  totalRows : t.totalRows = (cuts.flatMap Columns.rows).length
  segments : (t.metaTable.map (readSegment t.blobsTable state.plan.columns)).Perm
    (segmentsOf cuts)

/-- Rows that have the same segment-by values wherever they are cut together. -/
def Uniform (cuts : List state.Batch) : Prop :=
  ∀ c ∈ cuts, ∀ row ∈ c.rows, ∀ row' ∈ c.rows, SameSegment state.plan.columns row row'

theorem flatMap_perm_of_forall {α β : Type*} {f g : α → List β} {xs : List α}
    (h : ∀ x ∈ xs, (f x).Perm (g x)) : (xs.flatMap f).Perm (xs.flatMap g) := by
  induction xs with
  | nil => exact .refl _
  | cons x xs ih =>
      rw [List.flatMap_cons, List.flatMap_cons]
      exact (h x List.mem_cons_self).append (ih fun x' hx' => h x' (List.mem_cons_of_mem x hx'))

theorem flatMap_mapIdx {α β γ : Type*} (f : ℕ → α → β) (g : β → List γ) (k : α → List γ)
    (h : ∀ i a, g (f i a) = k a) (xs : List α) : (xs.mapIdx f).flatMap g = xs.flatMap k := by
  induction xs generalizing f with
  | nil => rfl
  | cons x xs ih =>
      rw [List.mapIdx_cons, List.flatMap_cons, List.flatMap_cons, h, ih _ fun i a => h (i + 1) a]

theorem rows_compressSegment (c : state.Batch) (segId : ℤ) :
    (storeSegment (sort c state.plan.orderColIndices) segId).rows state.plan.columns =
      (compressSegment ⟨c, 0, 0⟩).stored.rows state.plan.columns := by
  simp only [StoredSegment.rows, compressSegment, storeSegment, flushSegmentMetadata]

theorem Published.rows {t : Companions} {cuts : List state.Batch} (h : Published t cuts)
    (hsmall : ∀ c ∈ cuts, c.numRows < 2 ^ 32) (hsame : Uniform cuts) :
    (t.rows state.plan.columns).Perm (cuts.flatMap Columns.rows) := by
  have hread : t.rows state.plan.columns =
      (t.metaTable.map (readSegment t.blobsTable state.plan.columns)).flatMap
        (StoredSegment.rows state.plan.columns) := by
    rw [List.flatMap_map]
    rfl
  have hsegments : (segmentsOf cuts).flatMap (StoredSegment.rows state.plan.columns) =
      cuts.flatMap fun c => (compressSegment ⟨c, 0, 0⟩).stored.rows state.plan.columns :=
    flatMap_mapIdx (fun i c => storeSegment (sort c state.plan.orderColIndices) (wrapI32 (i + 1)))
      (StoredSegment.rows state.plan.columns)
      (fun c => (compressSegment ⟨c, 0, 0⟩).stored.rows state.plan.columns)
      (fun _ c => rows_compressSegment c _) cuts
  rw [hread]
  refine (h.segments.flatMap_right _).trans ?_
  rw [hsegments]
  apply flatMap_perm_of_forall
  intro c hc
  exact (compressSegment_reads_iff ⟨c, 0, 0⟩ (hsmall c hc)).mpr (hsame c hc)

/-! ## Feeding a buffer -/

/-- The buffer was fed these rows: the cuts are written, the rest is in the columns. -/
structure Loaded (buf : PartitionBuffer state) (cuts : List state.Batch)
    (fed : List (List (Option Stored))) : Prop where
  wrote : ∃ segs, Wrote buf segs ∧ segs.Perm (segmentsOf cuts)
  next : buf.nextSegmentId = wrapI32 (cuts.length + 1)
  rows : cuts.flatMap Columns.rows ++ buf.batch.rows = fed
  total : buf.totalRows = (cuts.flatMap Columns.rows).length
  nonempty : ∀ c ∈ cuts, 0 < c.numRows

theorem wrapI32_one : wrapI32 1 = 1 := by
  norm_num [wrapI32, Int.bmod]

theorem loaded_new (state : BackfillState) : Loaded (PartitionBuffer.new state) [] [] where
  wrote := ⟨[], wrote_new state, .refl _⟩
  next := wrapI32_one.symm
  rows := rfl
  total := rfl
  nonempty := by simp

variable {buf : PartitionBuffer state} {cuts : List state.Batch}
  {fed : List (List (Option Stored))}

/-- Rows join the columns. -/
theorem Loaded.append (h : Loaded buf cuts fed) {batch : state.Batch}
    {more : List (List (Option Stored))} (hrows : batch.rows = buf.batch.rows ++ more) :
    Loaded { buf with batch := batch } cuts (fed ++ more) :=
  { h with
    wrote := by
      obtain ⟨segs, hwrote, hperm⟩ := h.wrote
      exact ⟨segs, ⟨hwrote.metas, hwrote.blobs⟩, hperm⟩
    rows := by
      show cuts.flatMap Columns.rows ++ batch.rows = fed ++ more
      rw [hrows, ← List.append_assoc, h.rows] }

theorem Loaded.flush (h : Loaded buf cuts fed) (hpos : 0 < buf.batch.numRows) :
    Loaded buf.flushSegment (cuts ++ [buf.batch]) fed := by
  obtain ⟨segs, hwrote, hperm⟩ := h.wrote
  obtain ⟨hflush, hbatch, hnext, htotal⟩ := flushSegment_spec hwrote
  have hflat : (cuts ++ [buf.batch]).flatMap Columns.rows = fed := by
    rw [List.flatMap_append, List.flatMap_singleton]
    exact h.rows
  constructor
  case wrote =>
    refine ⟨_, hflush, ?_⟩
    rw [segmentsOf_concat, h.next]
    exact hperm.append_right _
  case next =>
    rw [hnext, h.next, wrapI32_wrapI32_add_one, List.length_append, List.length_singleton]
    rfl
  case rows => rw [hbatch, Columns.rows_empty, List.append_nil, hflat]
  case total =>
    rw [htotal, h.total, hflat, ← h.rows, List.length_append, Columns.length_rows]
    rfl
  case nonempty =>
    intro c hc
    rcases List.mem_append.mp hc with hc | hc
    · exact h.nonempty c hc
    · rw [List.mem_singleton.mp hc]
      exact hpos

def flushIfFull (buf : PartitionBuffer state) : PartitionBuffer state :=
  if state.plan.segmentSize ≤ buf.batch.numRows then buf.flushSegment else buf

theorem Loaded.flushIfFull (h : Loaded buf cuts fed) :
    ∃ cuts', Loaded (flushIfFull buf) cuts' fed := by
  rw [Loading.flushIfFull]
  split_ifs with hfull
  · exact ⟨_, h.flush (state.plan.segmentSize_pos.trans_le hfull)⟩
  · exact ⟨cuts, h⟩

/-! ## The end of a COPY -/

/-- When the COPY ends the tables hold segments that were cut from these rows, and they give the
rows back where the rows of each cut have the same segment-by values.  Without rows there are no
tables. -/
def Publishes (buf : PartitionBuffer state) (fed : List (List (Option Stored))) : Prop :=
  (fed = [] ∧ endOfCopy buf = .ok none) ∨
    ∃ t, ∃ cuts : List state.Batch, endOfCopy buf = .ok (some t) ∧ Published t cuts ∧
      t.totalRows = fed.length ∧ (cuts.flatMap Columns.rows).Perm fed ∧
      (Uniform cuts → (t.rows state.plan.columns).Perm fed)

theorem Publishes.length_eq {fed fed' : List (List (Option Stored))} (h : Publishes buf fed)
    (h' : Publishes buf fed') : fed.length = fed'.length := by
  rcases h with ⟨rfl, hnone⟩ | ⟨t, -, hend, -, htotal, -⟩
  · rcases h' with ⟨rfl, -⟩ | ⟨t', -, hend', -⟩
    · rfl
    · rw [hnone] at hend'
      cases hend'
  · rcases h' with ⟨-, hnone⟩ | ⟨t', -, hend', -, htotal', -⟩
    · rw [hnone] at hend
      cases hend
    · rw [hend] at hend'
      obtain rfl := Option.some.inj (Except.ok.inj hend')
      exact Int.ofNat_inj.mp (htotal.symm.trans htotal')

/-- Once all cuts are written the end of the COPY puts them into the tables. -/
theorem publishes_of_segments {segs : List StoredSegment} (hwrote : Wrote buf segs)
    (hall : (allSegments buf segs).Perm (segmentsOf cuts)) (hne : ∀ c ∈ cuts, 0 < c.numRows)
    (hpos : 0 ≤ buf.totalRows) (hzero : buf.totalRows = 0 → segs = [])
    (htotal : buf.totalRows + buf.batch.numRows = (cuts.flatMap Columns.rows).length)
    (hrows : (cuts.flatMap Columns.rows).Perm fed) (hlt : fed.length < 2 ^ 32) :
    Publishes buf fed := by
  have hlength := hrows.length_eq
  have hcuts := length_le_flatMap hne
  have hids : ((allSegments buf segs).map StoredSegment.segmentId).Nodup :=
    (hall.map _).nodup_iff.mpr (nodup_segmentIds (by omega))
  have hnum : ∀ seg ∈ segs, Numbered state.plan.columns seg := by
    intro seg hseg
    have hmem : seg ∈ allSegments buf segs := by
      rw [allSegments]
      split_ifs
      · exact List.mem_append_left _ hseg
      · exact hseg
    exact numbered_segmentsOf (hall.mem_iff.mp hmem)
  rcases endOfCopy_spec hwrote hnum hids hpos hzero with ⟨hnil, hend⟩ | ⟨t, hend, hcount, hsegs⟩
  · left
    rw [hnil] at hall
    have hlen := hall.length_eq
    rw [segmentsOf, List.length_mapIdx, List.length_nil] at hlen
    rw [List.length_eq_zero_iff.mp hlen.symm] at hrows
    exact ⟨hrows.symm.eq_nil, hend⟩
  · right
    have hpublished : Published t cuts := ⟨hcount.trans htotal, hsegs ▸ hall⟩
    refine ⟨t, cuts, hend, hpublished, by rw [hpublished.totalRows, hlength], hrows, ?_⟩
    intro hsame
    refine (hpublished.rows (fun c hc => ?_) hsame).trans hrows
    have hle : c.rows.length ≤ (cuts.flatMap Columns.rows).length :=
      (List.sublist_flatten_of_mem (List.mem_map_of_mem hc)).length_le
    rw [Columns.length_rows] at hle
    omega

theorem Loaded.publishes (h : Loaded buf cuts fed) (hlt : fed.length < 2 ^ 32) :
    Publishes buf fed := by
  obtain ⟨segs, hwrote, hperm⟩ := h.wrote
  have htotal := h.total
  have hrows := congrArg List.length h.rows
  rw [List.length_append, Columns.length_rows] at hrows
  have hzero : buf.totalRows = 0 → segs = [] := by
    intro h0
    have hlength := length_le_flatMap h.nonempty
    have hnil : cuts = [] := List.length_eq_zero_iff.mp (by omega)
    rw [hnil] at hperm
    exact List.Perm.eq_nil hperm
  by_cases hpos : 0 < buf.batch.numRows
  · -- the rows that are left are the last cut
    have hflush := h.flush hpos
    have hflat : (cuts ++ [buf.batch]).flatMap Columns.rows = fed := by
      rw [List.flatMap_append, List.flatMap_singleton]
      exact h.rows
    refine publishes_of_segments hwrote ?_ hflush.nonempty (by omega) hzero ?_ (.of_eq hflat) hlt
    · rw [allSegments, if_pos hpos, segmentsOf_concat, h.next]
      exact hperm.append_right _
    · rw [hflat]
      omega
  · have hnil : buf.batch.rows = [] := by
      rw [← List.length_eq_zero_iff, Columns.length_rows]
      omega
    have hflat := h.rows
    rw [hnil, List.append_nil] at hflat
    refine publishes_of_segments hwrote ?_ h.nonempty (by omega) hzero (by omega) (.of_eq hflat) hlt
    rw [allSegments, if_neg hpos]
    exact hperm

end DeltaX.Copy.Loading
