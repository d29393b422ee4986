import DeltaX.Copy.Loading
/-!
# Loading parquet files one after the other

Every row group is decoded into typed columns, whose rows go to the buffers of their
partitions.  Rows that fall into no partition are counted and skipped.
-/

namespace DeltaX.Copy.Parquet

open Column DeltaX.Partition DeltaX.Partition.Streaming Routing Backfill Loading

variable {state : BackfillState}

abbrev Buffers (state : BackfillState) : Type := ℕ → PartitionBuffer state

/-- The row groups of a file as they are decoded, or the error of the first that is not. -/
abbrev ParquetFile (state : BackfillState) : Type := List (Except Text state.Batch)

/-! ## The loader -/

def routeRow (batch : state.Batch) (times : List (Option (BitVec 64)))
    (out : Buffers state × ℤ) (j : Fin batch.numRows) : Buffers state × ℤ :=
  match partOf state times j with
  | some p =>
      (Function.update out.1 p
        (flushIfFull { out.1 p with batch := (out.1 p).batch.pushFrom batch j }), out.2 + 1)
  | none => out

def routeRowsToPartitions (batch : state.Batch) (bufs : Buffers state) (totalRows : ℤ) :
    Except Text (Buffers state × ℤ) :=
  match timeVals batch with
  | none => .error timeColumnError
  | some times =>
      let (minTs, maxTs) := minMaxTs (times.take batch.numRows)
      let slow := (List.finRange batch.numRows).foldl (routeRow batch times) (bufs, totalRows)
      if state.ranges.find minTs = state.ranges.find maxTs then
        match state.ranges.find minTs with
        | some p =>
            .ok (Function.update bufs p
              (flushIfFull { bufs p with batch := (bufs p).batch.extend batch }),
              totalRows + batch.numRows)
        | none => .ok slow
      else .ok slow

/-- The row groups of `handle_copy_from_parquet`: the buffers, and the rows that were loaded
and skipped. -/
def loadRowGroups : ParquetFile state → Buffers state × ℤ × ℤ → Except Text (Buffers state × ℤ × ℤ)
  | [], out => .ok out
  | .error e :: _, _ => .error e
  | .ok batch :: rowGroups, (bufs, fileRows, fileSkipped) =>
      if batch.numRows = 0 then loadRowGroups rowGroups (bufs, fileRows, fileSkipped)
      else do
        let (bufs, loaded) ← routeRowsToPartitions batch bufs fileRows
        loadRowGroups rowGroups (bufs, loaded, fileSkipped + (batch.numRows - (loaded - fileRows)))

def handleCopyFromParquet (file : ParquetFile state) (bufs : Buffers state) :
    Except Text (Buffers state × ℤ × ℤ) :=
  loadRowGroups file (bufs, 0, 0)

def copyFromParquet (files : List (ParquetFile state)) (bufs : Buffers state) :
    Except Text (Buffers state) :=
  files.foldlM (fun bufs file => (handleCopyFromParquet file bufs).map Prod.fst) bufs

/-! ## One row group -/

def Fed (bufs : Buffers state) (fed : ℕ → List (List (Option Stored))) : Prop :=
  ∀ p, ∃ cuts, Loaded (bufs p) cuts (fed p)

theorem Fed.update {bufs : Buffers state} {fed : ℕ → List (List (Option Stored))}
    (h : Fed bufs fed) {p : ℕ} {batch : state.Batch} {more : List (List (Option Stored))}
    (hrows : batch.rows = (bufs p).batch.rows ++ more) :
    Fed (Function.update bufs p (flushIfFull { bufs p with batch := batch }))
      (Function.update fed p (fed p ++ more)) := by
  intro q
  by_cases hq : q = p
  · subst hq
    rw [Function.update_self, Function.update_self]
    obtain ⟨cuts, hloaded⟩ := h q
    exact (hloaded.append hrows).flushIfFull
  · rw [Function.update_of_ne hq, Function.update_of_ne hq]
    exact h q

/-- The rows of a batch that lie in no partition. -/
def outside (batch : state.Batch) (times : List (Option (BitVec 64))) : ℕ :=
  (List.range batch.numRows).countP fun j => (partOf state times j).isNone

theorem countP_isSome_add_outside (batch : state.Batch) (times : List (Option (BitVec 64))) :
    ((List.range batch.numRows).countP fun j => (partOf state times j).isSome) +
      outside batch times = batch.numRows := by
  have hnot : outside batch times =
      (List.range batch.numRows).countP fun j => decide ¬ (partOf state times j).isSome = true := by
    apply List.countP_congr
    intro j _
    cases partOf state times j <;> simp
  have hsplit := @List.length_eq_countP_add_countP ℕ (fun j => (partOf state times j).isSome)
    (List.range batch.numRows)
  rw [List.length_range] at hsplit
  rw [hnot]
  exact hsplit.symm

theorem foldl_routeRow (batch : state.Batch) (times : List (Option (BitVec 64)))
    (js : List (Fin batch.numRows)) {bufs : Buffers state}
    {fed : ℕ → List (List (Option Stored))} (h : Fed bufs fed) (total : ℤ) :
    ∃ bufs', js.foldl (routeRow batch times) (bufs, total) =
        (bufs', total + ((js.map Fin.val).countP fun j => (partOf state times j).isSome : ℕ)) ∧
      Fed bufs' fun p => fed p ++
        ((js.map Fin.val).filter fun j => partOf state times j == some p).map (rowAt batch.cols) := by
  induction js generalizing bufs fed total with
  | nil => exact ⟨bufs, by simp, by simpa using h⟩
  | cons j js ih =>
      rw [List.foldl_cons, routeRow, List.map_cons]
      cases hpart : partOf state times j with
      | none =>
          obtain ⟨bufs', hfold, hfed⟩ := ih h total
          refine ⟨bufs', ?_, ?_⟩
          · rw [hfold, List.countP_cons_of_neg (by simp [hpart])]
          · simpa [hpart] using hfed
      | some q =>
          have hpush := h.update (Columns.rows_pushFrom (bufs q).batch batch j)
          obtain ⟨bufs', hfold, hfed⟩ := ih hpush (total + 1)
          refine ⟨bufs', ?_, fun p => ?_⟩
          · dsimp only
            rw [hfold, List.countP_cons_of_pos (by simp [hpart])]
            push_cast
            rw [add_assoc, add_comm (1 : ℤ)]
          · obtain ⟨cuts, hloaded⟩ := hfed p
            refine ⟨cuts, ?_⟩
            dsimp only at hloaded ⊢
            rw [List.filter_cons, hpart]
            by_cases hp : q = p
            · subst hp
              rw [Function.update_self] at hloaded
              rw [if_pos (beq_self_eq_true _), List.map_cons]
              simpa using hloaded
            · rw [Function.update_of_ne (Ne.symm hp)] at hloaded
              rw [if_neg (by simpa using hp)]
              exact hloaded

/-- The rows go where their times lie; the fast path does as the slow one. -/
theorem routeRowsToPartitions_spec {batch : state.Batch} {times : List (Option (BitVec 64))}
    (htimed : Timed batch times) {bufs : Buffers state} {fed : ℕ → List (List (Option Stored))}
    (h : Fed bufs fed) (total : ℤ) :
    ∃ bufs', routeRowsToPartitions batch bufs total =
        .ok (bufs', total + (batch.numRows - outside batch times : ℤ)) ∧
      Fed bufs' fun p => fed p ++ rowsIn batch times p := by
  have htake : times.take batch.numRows = times :=
    List.take_of_length_le (length_timeVals htimed.1).le
  have hcount := countP_isSome_add_outside batch times
  have hslow : ∃ bufs', (List.finRange batch.numRows).foldl (routeRow batch times) (bufs, total) =
        (bufs', total + (batch.numRows - outside batch times : ℤ)) ∧
      Fed bufs' fun p => fed p ++ rowsIn batch times p := by
    obtain ⟨bufs', hfold, hfed⟩ := foldl_routeRow batch times (List.finRange batch.numRows) h total
    rw [List.map_coe_finRange_eq_range] at hfold hfed
    refine ⟨bufs', ?_, hfed⟩
    rw [hfold]
    congr 1
    omega
  obtain ⟨bufs', hfold, hfed⟩ := hslow
  rw [routeRowsToPartitions, htimed.1]
  dsimp only
  rw [htake]
  split_ifs with hsame
  · cases hmin : state.ranges.find (minMaxTs times).1 with
    | none => exact ⟨bufs', congrArg Except.ok hfold, hfed⟩
    | some q =>
        have hall : ∀ j ∈ List.range batch.numRows, partOf state times j = some q := by
          intro j hj
          exact htimed.partOf_of_same hmin (hsame ▸ hmin) (List.mem_range.mp hj)
        have houtside : outside batch times = 0 := by
          rw [outside, List.countP_eq_zero]
          intro j hj
          simp [hall j hj]
        refine ⟨_, by rw [houtside, Nat.cast_zero, sub_zero], fun p => ?_⟩
        obtain ⟨cuts, hloaded⟩ := h.update (Columns.rows_extend (bufs q).batch batch) p
        refine ⟨cuts, ?_⟩
        dsimp only
        rw [htimed.rowsIn_of_same hmin (hsame ▸ hmin)]
        by_cases hp : q = p
        · subst hp
          rw [Function.update_self, Function.update_self] at hloaded
          rw [Function.update_self, if_pos rfl]
          exact hloaded
        · rw [Function.update_of_ne (Ne.symm hp) _ fed] at hloaded
          rw [if_neg hp, List.append_nil]
          exact hloaded
  · exact ⟨bufs', congrArg Except.ok hfold, hfed⟩

/-! ## All files -/

/-- A row group with a time for every row. -/
structure TimedBatch (state : BackfillState) where
  batch : state.Batch
  times : List (Option (BitVec 64))
  timed : Timed batch times

def rowsOf (rowGroups : List (TimedBatch state)) (p : ℕ) : List (List (Option Stored)) :=
  rowGroups.flatMap fun b => rowsIn b.batch b.times p

/-- The rows of row groups that belong to no partition. -/
def skipped (rowGroups : List (TimedBatch state)) : ℕ :=
  (rowGroups.map fun b => outside b.batch b.times).sum

def fileOf (rowGroups : List (TimedBatch state)) : ParquetFile state :=
  rowGroups.map fun b => .ok b.batch

theorem loadRowGroups_spec (rowGroups : List (TimedBatch state)) {bufs : Buffers state}
    {fed : ℕ → List (List (Option Stored))} (h : Fed bufs fed) (loaded skip : ℤ) :
    ∃ bufs', loadRowGroups (fileOf rowGroups) (bufs, loaded, skip) =
        .ok (bufs', loaded + ((rowGroups.map fun b => b.batch.numRows).sum - skipped rowGroups : ℤ),
          skip + skipped rowGroups) ∧
      Fed bufs' fun p => fed p ++ rowsOf rowGroups p := by
  induction rowGroups generalizing bufs fed loaded skip with
  | nil => exact ⟨bufs, by simp [loadRowGroups, fileOf, skipped], by simpa [rowsOf] using h⟩
  | cons b rowGroups ih =>
      rw [fileOf, List.map_cons, loadRowGroups]
      by_cases hzero : b.batch.numRows = 0
      · have hnil : outside b.batch b.times = 0 := by rw [outside, hzero]; rfl
        have hrows : ∀ p, rowsIn b.batch b.times p = [] := by
          intro p
          rw [rowsIn, hzero]
          rfl
        obtain ⟨bufs', hload, hfed⟩ := ih h loaded skip
        refine ⟨bufs', ?_, ?_⟩
        · rw [if_pos hzero]
          refine hload.trans ?_
          simp only [skipped, List.map_cons, List.sum_cons, hzero, hnil, Nat.zero_add]
        · simp only [rowsOf, List.flatMap_cons, hrows, List.nil_append]
          exact hfed
      · obtain ⟨bufs', hroute, hfed⟩ := routeRowsToPartitions_spec b.timed h loaded
        obtain ⟨bufs'', hload, hfed'⟩ := ih hfed
          (loaded + (b.batch.numRows - outside b.batch b.times : ℤ))
          (skip + (b.batch.numRows -
            (loaded + (b.batch.numRows - outside b.batch b.times : ℤ) - loaded)))
        refine ⟨bufs'', ?_, ?_⟩
        · rw [if_neg hzero, hroute]
          refine hload.trans ?_
          simp only [skipped, List.map_cons, List.sum_cons]
          push_cast
          congr 3 <;> ring
        · simp only [rowsOf, List.flatMap_cons]
          simpa only [rowsOf, List.append_assoc] using hfed'

theorem copyFromParquet_fed (files : List (List (TimedBatch state))) {bufs : Buffers state}
    {fed : ℕ → List (List (Option Stored))} (h : Fed bufs fed) :
    ∃ bufs', copyFromParquet (files.map fileOf) bufs = .ok bufs' ∧
      Fed bufs' fun p => fed p ++ rowsOf files.flatten p := by
  induction files generalizing bufs fed with
  | nil => exact ⟨bufs, rfl, by simpa [rowsOf] using h⟩
  | cons file files ih =>
      obtain ⟨bufs', hload, hfed⟩ := loadRowGroups_spec file h 0 0
      obtain ⟨bufs'', hcopy, hfed'⟩ := ih hfed
      refine ⟨bufs'', ?_, ?_⟩
      · rw [copyFromParquet, List.map_cons, List.foldlM_cons, handleCopyFromParquet, hload]
        exact hcopy
      · simp only [rowsOf, List.flatten_cons, List.flatMap_append, List.append_assoc] at hfed' ⊢
        exact hfed'

theorem length_rowsOf_le (rowGroups : List (TimedBatch state)) (p : ℕ) :
    (rowsOf rowGroups p).length ≤ (rowGroups.map fun b => b.batch.numRows).sum := by
  induction rowGroups with
  | nil => exact Nat.le_refl _
  | cons b rowGroups ih =>
      have hfilter := List.length_filter_le (fun j => partOf state b.times j == some p)
        (List.range b.batch.numRows)
      rw [List.length_range] at hfilter
      rw [rowsOf, List.flatMap_cons, List.length_append, rowsIn, List.length_map, List.map_cons,
        List.sum_cons]
      exact Nat.add_le_add hfilter ih

/-- A table that has only its time column and one partition, of an hour. -/
def oneHour : BackfillState where
  plan := {
    forceTextFallback := false
    columns := [⟨"ts".toList, .timestamptz, false, true⟩]
    segmentBy := []
    orderBy := ["ts".toList]
    segmentSize := 1000
    segmentSize_pos := by decide
    segmentSize_lt := by decide }
  timeColIndex := 0
  ranges := ⟨[(0, 3600000000)], by decide, by decide⟩
  blobLen _ := 8

/-- A row group that has a row before the hour, one in it and one after it. -/
def straddling : TimedBatch oneHour where
  batch := ⟨[.int64 [some (-1), some 60000000, some 3600000000]], 3, .cons ⟨rfl, rfl⟩ .nil⟩
  times := [some (-1), some 60000000, some 3600000000]
  timed := ⟨rfl, by decide⟩

end DeltaX.Copy.Parquet
