import DeltaX.Copy.PipelineThreads
import DeltaX.Support.Machine
/-!
# Every run of the pipeline

However the threads take turns, they get on until the main thread has joined the workers, and
then every partition has the rows that the decode workers sent to it.
-/

namespace DeltaX.Copy.ParquetPipeline

open Column DeltaX.Partition DeltaX.Partition.Streaming Support.Wrapping Routing Backfill Loading
open Parquet
open Support.Machine (run along_true invariant_run)

variable {state : BackfillState} {files : List (ParquetFile state)} {s s' : Pipeline state}
  {cuts : ℕ → List state.Batch}

/-! ## Runs -/

theorem accounts_spawn (totalWorkers : ℕ) (files : List (ParquetFile state)) :
    Accounts files (spawn totalWorkers files) fun _ => [] where
  rows p := by
    have hdecoders : ((spawn totalWorkers files).decoders.map (decoderRows p)).sum = 0 := by
      apply sum_map_eq_zero
      intro d hd
      rw [List.eq_of_mem_replicate hd]
      rfl
    rw [pending, hdecoders]
    show 0 + 0 + _ + (0 : Rows) + 0 = _
    rw [zero_add, zero_add, add_zero, add_zero]
    rfl
  segments p := by
    refine ⟨[], ⟨wrote_new state, rfl⟩, ?_⟩
    have hcompressors : ((spawn totalWorkers files).compressors.map heldItems).sum = 0 := by
      apply sum_map_eq_zero
      intro c hc
      rw [List.eq_of_mem_replicate hc]
      rfl
    rw [inFlight, hcompressors]
    rfl
  next _ := wrapI32_one.symm
  nonempty p c hc := by cases hc

theorem threads_spawn {totalWorkers : ℕ} (hworkers : 0 < totalWorkers)
    (files : List (ParquetFile state)) : Threads files (spawn totalWorkers files) where
  decodes := by
    refine ⟨fun hall => ?_, fun batches e hmem => ?_, fun e he => by cases he⟩
    · by_contra hpos
      have hfiles : ¬ files.length ≤ 0 := hpos
      have hdecode : nDecode totalWorkers files.length ≠ 0 := by
        rw [nDecode]
        omega
      cases hall .ready (List.mem_replicate.mpr ⟨hdecode, rfl⟩)
    · cases List.eq_of_mem_replicate hmem
  compresses := by
    refine ⟨fun hnil => ?_, fun hmem => by cases List.eq_of_mem_replicate hmem⟩
    have hcompress := congrArg List.length hnil
    rw [spawn, List.length_replicate, nCompress, List.length_nil] at hcompress
    omega
  phase := trivial
  blocked item resume hmain := by cases hmain

/-- Any number of turns in any order. -/
theorem accounts_run (haccounts : Accounts files s cuts) (turns : List Turn) :
    ∃ cuts', Accounts files (run (Pipeline.step files) s turns) cuts' := by
  refine invariant_run (I := fun s => ∃ cuts, Accounts files s cuts) ?_ ⟨cuts, haccounts⟩
    (along_true s turns)
  rintro s turn s' ⟨cuts, h⟩ - hstep
  cases turn with
  | decoder i => exact ⟨cuts, h.decoder (decoderMove_of_step hstep)⟩
  | compressor i => exact ⟨cuts, h.compressor (compressorMove_of_step hstep)⟩
  | main => exact h.main (mainMove_of_step hstep)

theorem threads_run (hthreads : Threads files s)
    (hok : ∀ file ∈ files, (decodeFile file).2 = .ok ()) (turns : List Turn) :
    Threads files (run (Pipeline.step files) s turns) := by
  refine invariant_run ?_ hthreads (along_true s turns)
  rintro s turn s' h - hstep
  cases turn with
  | decoder i => exact h.decoder hok (decoderMove_of_step hstep)
  | compressor i => exact h.compressor (compressorMove_of_step hstep)
  | main => exact h.main (mainMove_of_step hstep)

/-! ## The end of a run -/

theorem Threads.pending_eq_zero (h : Threads files s) (hat : s.main = .joined) (p : ℕ) :
    pending files s p = 0 := by
  have hphase := h.phase
  rw [hat] at hphase
  obtain ⟨⟨hdone, hroute, -⟩, -⟩ := hphase
  rw [decodersDone_iff] at hdone
  have hdecoders : (s.decoders.map (decoderRows p)).sum = 0 := by
    apply sum_map_eq_zero
    intro d hd
    rw [hdone d hd]
    rfl
  rw [pending, hroute, hdecoders, List.drop_eq_nil_of_le (h.decodes.taken hdone)]
  rfl

theorem Threads.inFlight_eq_zero (h : Threads files s) (hat : s.main = .joined) :
    inFlight s = 0 := by
  have hphase := h.phase
  rw [hat] at hphase
  obtain ⟨-, hdone, hcompressed⟩ := hphase
  rw [compressorsDone_iff] at hdone
  obtain ⟨c, hc⟩ := List.exists_mem_of_ne_nil _ h.compresses.nonempty
  obtain ⟨-, hsegs⟩ := h.compresses.closed (hdone c hc ▸ hc)
  have hcompressors : (s.compressors.map heldItems).sum = 0 := by
    apply sum_map_eq_zero
    intro c hc
    rw [hdone c hc]
    rfl
  rw [inFlight, hat, hsegs, hcompressed, hcompressors]
  rfl

theorem stored_compressedOf (p : ℕ) (cuts : List state.Batch) :
    (compressedOf p cuts).map CompressedSegment.stored = segmentsOf cuts := by
  induction cuts using List.reverseRecOn with
  | nil => rfl
  | append_singleton cuts c ih =>
      rw [compressedOf_concat, segmentsOf_concat, List.map_append, ih, List.map_singleton,
        compressSegment]

theorem rowCount_compressedOf (p : ℕ) (cuts : List state.Batch) :
    ((compressedOf p cuts).map fun cs => (cs.rowCount : ℤ)).sum =
      (cuts.flatMap Columns.rows).length := by
  induction cuts using List.reverseRecOn with
  | nil => rfl
  | append_singleton cuts c ih =>
      rw [compressedOf_concat, List.map_append, List.sum_append, ih, List.flatMap_append,
        List.length_append, List.flatMap_singleton, Columns.length_rows, List.map_singleton,
        List.sum_singleton, Nat.cast_add]
      rfl

/-- When the workers are joined a partition has all rows that were sent to it. -/
theorem publishes_of_joined (haccounts : Accounts files s cuts) (hthreads : Threads files s)
    (hat : s.main = .joined) {p : ℕ} {fed : List (List (Option Stored))}
    (hfed : (files.map (fileRows p)).sum = fed)
    (hnone : state.ranges.bounds.length ≤ p → fed = []) (hlt : fed.length < 2 ^ 32) :
    Publishes (s.bufs p) fed := by
  have hrows := haccounts.rows p
  rw [hthreads.pending_eq_zero hat, zero_add, hfed, Multiset.coe_add, Multiset.coe_eq_coe] at hrows
  have hempty : (s.bufs p).batch.numRows = 0 := by
    have hphase := hthreads.phase
    rw [hat] at hphase
    by_cases hp : p < state.ranges.bounds.length
    · exact hphase.1.bufs p hp
    · have hlength := hrows.length_eq
      rw [hnone (not_lt.mp hp), List.length_append, Columns.length_rows, List.length_nil] at hlength
      omega
  have hnil : (s.bufs p).batch.rows = [] := by
    rw [← List.length_eq_zero_iff, Columns.length_rows, hempty]
  rw [hnil, List.nil_append] at hrows
  obtain ⟨css, hwritten, hsegments⟩ := haccounts.segments p
  rw [hthreads.inFlight_eq_zero hat, ofPartition, Multiset.filter_zero, zero_add,
    Multiset.coe_eq_coe] at hsegments
  have htotal : (s.bufs p).totalRows = ((cuts p).flatMap Columns.rows).length := by
    rw [hwritten.totalRows, (hsegments.map _).sum_eq, rowCount_compressedOf]
  have hstored : (css.map CompressedSegment.stored).Perm (segmentsOf (cuts p)) := by
    rw [← stored_compressedOf p]
    exact hsegments.map _
  refine publishes_of_segments hwritten.wrote ?_ (haccounts.nonempty p) (by omega) ?_ ?_ hrows hlt
  · rwa [allSegments, if_neg (by omega)]
  · intro h0
    have hlength := length_le_flatMap (haccounts.nonempty p)
    rw [List.length_eq_zero_iff.mp (by omega : (cuts p).length = 0)] at hstored
    exact List.Perm.eq_nil hstored
  · omega

/-! ## What the decode workers send -/

/-- What the decode workers send of row groups to a partition. -/
def sentOf (rowGroups : List (TimedBatch state)) (p : ℕ) : List (List (Option Stored)) :=
  rowGroups.flatMap fun b => sentTo b.batch b.times p

theorem sum_batchRows (p : ℕ) (sent : List (RoutedBatch state)) :
    (sent.map (batchRows p)).sum = (rowsTo p sent : Rows) := by
  induction sent with
  | nil => rfl
  | cons b sent ih =>
      rw [List.map_cons, List.sum_cons, ih, ← List.singleton_append, rowsTo_append,
        rowsTo_singleton, ← Multiset.coe_add, batchRows]
      split_ifs <;> rfl

theorem rowsIn_eq_nil {batch : state.Batch} {times : List (Option (BitVec 64))}
    (h : batch.numRows = 0) (p : ℕ) : rowsIn batch times p = [] := by
  rw [rowsIn, h]
  rfl

theorem sentTo_eq_nil {batch : state.Batch} {times : List (Option (BitVec 64))}
    (h : batch.numRows = 0) (p : ℕ) : sentTo batch times p = [] := by
  have hrows : batch.rows = [] := by rw [← List.length_eq_zero_iff, Columns.length_rows, h]
  rw [sentTo, hrows, rowsIn_eq_nil h, ite_self, ite_self]

theorem decodeFile_fileOf (rowGroups : List (TimedBatch state)) :
    (decodeFile (fileOf rowGroups)).2 = .ok () ∧
      ∀ p, fileRows p (fileOf rowGroups) = sentOf rowGroups p := by
  induction rowGroups with
  | nil => exact ⟨rfl, fun _ => rfl⟩
  | cons b rowGroups ih =>
      obtain ⟨hok, hrows⟩ := ih
      by_cases hzero : b.batch.numRows = 0
      · have hdecode : decodeFile (fileOf (b :: rowGroups)) = decodeFile (fileOf rowGroups) := by
          rw [fileOf, List.map_cons, decodeFile, if_pos hzero]
          rfl
        refine ⟨by rw [hdecode, hok], fun p => ?_⟩
        rw [fileRows, hdecode, sentOf, List.flatMap_cons, sentTo_eq_nil hzero, List.nil_append]
        exact hrows p
      · obtain ⟨sent, hroute, hsent⟩ := decodeAndRoute_rows b.timed.1
        have hdecode : decodeFile (fileOf (b :: rowGroups)) =
            (sent ++ (decodeFile (fileOf rowGroups)).1, (decodeFile (fileOf rowGroups)).2) := by
          rw [fileOf, List.map_cons, decodeFile, if_neg hzero, hroute]
          rfl
        refine ⟨by rw [hdecode, hok], fun p => ?_⟩
        rw [fileRows, hdecode, List.map_append, List.sum_append, sum_batchRows, hsent, sentOf,
          List.flatMap_cons, ← Multiset.coe_add]
        exact congrArg _ (hrows p)

theorem sum_fileRows (files : List (List (TimedBatch state))) (p : ℕ) :
    ((files.map fileOf).map (fileRows p)).sum = sentOf files.flatten p := by
  induction files with
  | nil => rfl
  | cons file files ih =>
      rw [List.map_cons, List.map_cons, List.sum_cons, ih, (decodeFile_fileOf file).2,
        List.flatten_cons, sentOf, sentOf, sentOf, List.flatMap_append, Multiset.coe_add]

theorem sentTo_of_straddles {batch : state.Batch} {times : List (Option (BitVec 64))}
    (h : Straddles batch times) (p : ℕ) : sentTo batch times p = [] := by
  rw [sentTo, h.1, h.2.1, if_pos rfl, if_neg (by simp)]

theorem sentTo_eq_nil_of_le {batch : state.Batch} {times : List (Option (BitVec 64))} {p : ℕ}
    (h : state.ranges.bounds.length ≤ p) : sentTo batch times p = [] := by
  rw [sentTo, rowsIn_of_le h]
  split_ifs with hsame hpart
  · have hlt := state.ranges.find_lt hpart
    omega
  · rfl
  · rfl

theorem length_sentTo_le (b : TimedBatch state) (p : ℕ) :
    (sentTo b.batch b.times p).length ≤ (rowsIn b.batch b.times p).length := by
  by_cases h : Straddles b.batch b.times
  · rw [sentTo_of_straddles h]
    exact Nat.zero_le _
  · rw [b.timed.sentTo_eq_iff.mpr h p]

theorem length_sentOf_le (rowGroups : List (TimedBatch state)) (p : ℕ) :
    (sentOf rowGroups p).length ≤ (rowsOf rowGroups p).length := by
  induction rowGroups with
  | nil => exact Nat.le_refl _
  | cons b rowGroups ih =>
      rw [sentOf, rowsOf, List.flatMap_cons, List.flatMap_cons, List.length_append,
        List.length_append]
      exact Nat.add_le_add (length_sentTo_le b p) ih

/-- A row group that straddles the partitions loses the rows that lie in them. -/
theorem length_sentOf_eq_iff (rowGroups : List (TimedBatch state)) :
    (∀ p, (sentOf rowGroups p).length = (rowsOf rowGroups p).length) ↔
      ∀ b ∈ rowGroups, ¬ Straddles b.batch b.times := by
  induction rowGroups with
  | nil => simp [sentOf, rowsOf]
  | cons b rowGroups ih =>
      have hsplit : ∀ p, (sentOf (b :: rowGroups) p).length =
            (rowsOf (b :: rowGroups) p).length ↔
          (sentTo b.batch b.times p).length = (rowsIn b.batch b.times p).length ∧
            (sentOf rowGroups p).length = (rowsOf rowGroups p).length := by
        intro p
        have hfirst := length_sentTo_le b p
        have hrest := length_sentOf_le rowGroups p
        rw [sentOf, rowsOf] at hrest ⊢
        rw [sentOf, rowsOf, List.flatMap_cons, List.flatMap_cons, List.length_append,
          List.length_append]
        omega
      rw [forall_congr' hsplit, forall_and, ih, List.forall_mem_cons]
      refine and_congr_left fun _ => ?_
      constructor
      · intro hall
        rw [← b.timed.sentTo_eq_iff]
        intro p
        by_contra hne
        have hstraddles : Straddles b.batch b.times := by
          by_contra hnot
          exact hne (b.timed.sentTo_eq_iff.mpr hnot p)
        have hlength := hall p
        rw [sentTo_of_straddles hstraddles, List.length_nil, eq_comm,
          List.length_eq_zero_iff] at hlength
        rw [sentTo_of_straddles hstraddles, hlength] at hne
        exact hne rfl
      · intro hnot p
        rw [b.timed.sentTo_eq_iff.mpr hnot p]

theorem sentOf_eq {rowGroups : List (TimedBatch state)}
    (h : ∀ b ∈ rowGroups, ¬ Straddles b.batch b.times) (p : ℕ) :
    sentOf rowGroups p = rowsOf rowGroups p := by
  induction rowGroups with
  | nil => rfl
  | cons b rowGroups ih =>
      rw [List.forall_mem_cons] at h
      rw [sentOf, rowsOf, List.flatMap_cons, List.flatMap_cons,
        b.timed.sentTo_eq_iff.mpr h.1 p]
      exact congrArg _ (ih h.2)

/-! ## Every run -/

/-- Two workers decode two files, send nothing and end. -/
def emptyRun : Pipeline oneHour :=
  run (Pipeline.step ([[straddling], []].map fileOf)) (spawn 2 ([[straddling], []].map fileOf))
    [.decoder 0, .decoder 1, .decoder 0, .decoder 1, .decoder 0, .decoder 1,
      .main, .main, .main, .main, .compressor 0, .main]

theorem main_emptyRun : emptyRun.main = .joined := rfl

end DeltaX.Copy.ParquetPipeline
