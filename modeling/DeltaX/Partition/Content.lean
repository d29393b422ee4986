import DeltaX.Partition.Steps
import Mathlib.Algebra.Order.Group.Multiset
import Mathlib.Tactic.Abel
/-!
# The content of a partition

To its users a partition is a multiset of rows that `INSERT` and `DELETE` change.
Wherever a row is stored, in a segment or in the heap, decompose, compaction and full
decompression only move it, as long as a compressed row reads as what was compressed
and its literals insert what it reads as.
-/

namespace DeltaX.Partition

open Support.ListLookup

variable {ρ κ : Type*}

/-! ## Content -/

/-- Rows of a segment at the offsets that satisfy `p`. -/
def rowsWhere (p : ℤ × ℕ → Bool) (seg : Segment ρ) : List ρ :=
  (seg.rows.zipIdx.filter fun q => p (seg.id, q.2)).map Prod.fst

/-- Segment rows without the tombstoned ones, as a scan reads them, and the loose rows. -/
def content (l : Layout ρ κ) (st : State ρ) : Multiset ρ :=
  ↑((st.segments.flatMap (liveRows st.tombstones)).map l.read) + ↑st.heapRows

section Effect

open Classical in
/-- The rows a user asked to delete: targeted offsets that are still live, whole
segments without their tombstoned rows, loose rows. -/
noncomputable def deletedRows (l : Layout ρ κ) (st : State ρ) : Op ρ → Multiset ρ
  | .tombstoneDelete targets =>
      ↑((st.segments.flatMap
        (rowsWhere fun t => decide (Targeted targets t) && decide (t ∉ st.tombstones))).map l.read)
  | .decompose _ _ dropIds =>
      ↑(((droppedSegments dropIds st).flatMap (liveRows st.tombstones)).map l.read)
  | .deleteLoose p => ↑(st.heapRows.filter p)
  | _ => 0

def insertedRows : Op ρ → Multiset ρ
  | .insert rows _ => ↑rows
  | _ => 0

end Effect

/-! ## Rows that are moved -/

/-- The literals of a row insert what a scan reads. -/
def Layout.Restores (l : Layout ρ κ) (r : ρ) : Prop := l.restore r = some (l.read r)

def literalRows (st : State ρ) : Op ρ → List ρ
  | .decompose _ decomposeIds dropIds => claimedRows decomposeIds dropIds st
  | .compact _ => claimedRows (st.tombstones.image Prod.fst) ∅ st
  | .decompress => if st.isCompressed then st.segments.flatMap (liveRows st.tombstones) else []
  | _ => []

def compressedRows (st : State ρ) : Op ρ → List ρ
  | .compress => if st.isCompressed then [] else st.heapRows
  | .compact _ => if st.isCompressed then st.heapRows else []
  | _ => []

/-- The rows an operation moves stay what they are. -/
structure KeepsRows (l : Layout ρ κ) (st : State ρ) (op : Op ρ) : Prop where
  restores : ∀ r ∈ literalRows st op, l.Restores r
  -- a row that compaction restores is compressed again
  reads_again : ∀ r ∈ literalRows st op, l.read (l.read r) = l.read r
  reads : ∀ r ∈ compressedRows st op, l.read r = r

theorem map_restored {l : Layout ρ κ} {rows restored : List ρ} (h : rows.mapM l.restore = some restored)
    (hrestores : ∀ r ∈ rows, l.Restores r) : restored = rows.map l.read :=
  Option.some.inj (h.symm.trans (mapM_eq_pure hrestores))

/-! ## Rows of segments -/

theorem liveRows_eq_rowsWhere (tombstones : Finset (ℤ × ℕ)) (seg : Segment ρ) :
    liveRows tombstones seg = rowsWhere (fun t => decide (t ∉ tombstones)) seg := rfl

theorem liveRows_congr {tombstones tombstones' : Finset (ℤ × ℕ)} {seg : Segment ρ}
    (h : ∀ off, (seg.id, off) ∈ tombstones ↔ (seg.id, off) ∈ tombstones') :
    liveRows tombstones seg = liveRows tombstones' seg := by
  unfold liveRows
  congr 1
  apply List.filter_congr
  intro q _
  simp [h q.2]

theorem liveRows_none : liveRows (∅ : Finset (ℤ × ℕ)) = (Segment.rows : Segment ρ → List ρ) := by
  funext seg
  simp [liveRows]

/-- The rows where `p` holds are those where `q` also holds and the others. -/
theorem rowsWhere_split (p q : ℤ × ℕ → Bool) (seg : Segment ρ) :
    (rowsWhere p seg : Multiset ρ) =
      rowsWhere (fun t => p t && !q t) seg + rowsWhere (fun t => q t && p t) seg := by
  have hperm := List.filter_append_perm (fun r : ρ × ℕ => q (seg.id, r.2))
    (seg.rows.zipIdx.filter fun r => p (seg.id, r.2))
  rw [List.filter_filter, List.filter_filter] at hperm
  have hrows := (hperm.map Prod.fst).symm
  rw [List.map_append] at hrows
  rw [Multiset.coe_add, Multiset.coe_eq_coe]
  refine hrows.trans (List.perm_append_comm.trans ?_)
  simp only [rowsWhere, Bool.and_comm]
  exact .refl _

theorem coe_flatMap_eq_add {segments : List (Segment ρ)} {f g h : Segment ρ → List ρ}
    (heq : ∀ seg ∈ segments, (f seg : Multiset ρ) = g seg + h seg) :
    (segments.flatMap f : Multiset ρ) = segments.flatMap g + segments.flatMap h := by
  induction segments with
  | nil => rfl
  | cons seg segments ih =>
      have hseg := heq seg List.mem_cons_self
      have hrest := ih fun seg' hmem => heq seg' (List.mem_cons_of_mem _ hmem)
      simp only [List.flatMap_cons, ← Multiset.coe_add, hseg, hrest]
      abel

/-! ## Each operation -/

/-- A tombstone `DELETE` removes the targeted live rows. -/
theorem content_tombstoned (l : Layout ρ κ) {targets : List (ℤ × List ℕ)} {st st' : State ρ}
    {inserted : ℕ} (h : Tombstoned targets st st' inserted) :
    content l st' + deletedRows l st (.tombstoneDelete targets) = content l st := by
  classical
  have hsplit : (st.segments.flatMap (liveRows st.tombstones) : Multiset ρ) =
      st.segments.flatMap (liveRows st'.tombstones) +
        st.segments.flatMap
          (rowsWhere fun t => decide (Targeted targets t) && decide (t ∉ st.tombstones)) := by
    apply coe_flatMap_eq_add
    intro seg hseg
    rw [liveRows_eq_rowsWhere, rowsWhere_split _ (fun t => decide (Targeted targets t))]
    congr 2
    unfold liveRows rowsWhere
    congr 1
    apply List.filter_congr
    intro q hq
    have hrow : st.HasRow (seg.id, q.2) := ⟨seg, hseg, rfl, List.snd_lt_of_mem_zipIdx hq⟩
    rw [Bool.eq_iff_iff]
    simp only [Bool.and_eq_true, decide_eq_true_eq, Bool.not_eq_true', decide_eq_false_iff_not,
      h.mem_tombstones, hrow, and_true, not_or]
  have hread := congrArg (Multiset.map l.read) hsplit
  rw [Multiset.map_add, Multiset.map_coe, Multiset.map_coe, Multiset.map_coe] at hread
  rw [content, content, State.heapRows, State.heapRows, h.segments_eq, h.heap_eq, hread, deletedRows]
  abel

theorem segments_perm (decomposeIds dropIds : Finset ℤ) (st : State ρ) :
    (droppedSegments dropIds st ++ (claimedSegments decomposeIds dropIds st ++
      keptSegments decomposeIds dropIds st)).Perm st.segments := by
  have hdropped := List.filter_append_perm (fun seg : Segment ρ => decide (seg.id ∈ dropIds))
    st.segments
  have hclaimed := List.filter_append_perm (fun seg : Segment ρ => decide (seg.id ∈ decomposeIds))
    (st.segments.filter fun seg => decide (seg.id ∉ dropIds))
  simp only [← decide_not] at hdropped hclaimed
  exact (hclaimed.append_left _).trans hdropped

/-- Decompose turns the live rows of the claimed segments into loose ones; those of the
dropped segments are gone. -/
theorem content_decomposed {l : Layout ρ κ} {decomposeIds dropIds : Finset ℤ} {st st' : State ρ}
    {stats : DmlDecomposeStats} (h : Decomposed decomposeIds dropIds st l st' stats) :
    content l st' + ↑((claimedRows decomposeIds dropIds st).map l.read) +
        ↑(((droppedSegments dropIds st).flatMap (liveRows st.tombstones)).map l.read) =
      content l st + ↑(restoredRows decomposeIds dropIds st l) := by
  have hkept : (keptSegments decomposeIds dropIds st).flatMap (liveRows st'.tombstones) =
      (keptSegments decomposeIds dropIds st).flatMap (liveRows st.tombstones) := by
    rw [List.flatMap_def, List.flatMap_def]
    congr 1
    apply List.map_congr_left
    intro seg hseg
    apply liveRows_congr
    intro off
    simp [h.mem_tombstones, not_mem_removedIds_of_kept hseg]
  have hheap : st'.heapRows = st.heapRows ++ restoredRows decomposeIds dropIds st l := by
    simp [State.heapRows, h.heap_eq, Function.comp_def]
  have hsegments : (((st.segments.flatMap (liveRows st.tombstones)).map l.read : List ρ) :
      Multiset ρ) = ((droppedSegments dropIds st ++ (claimedSegments decomposeIds dropIds st ++
        keptSegments decomposeIds dropIds st)).flatMap (liveRows st.tombstones)).map l.read :=
    Multiset.coe_eq_coe.mpr (((segments_perm decomposeIds dropIds st).flatMap_right _).symm.map _)
  rw [content, content, h.segments_eq, hkept, hheap, hsegments, claimedRows, List.flatMap_append,
    List.flatMap_append, List.map_append, List.map_append]
  simp only [← Multiset.coe_add]
  abel

theorem content_decompose {l : Layout ρ κ} {shapeMatches : Bool} {decomposeIds dropIds : Finset ℤ}
    {st st' : State ρ} {stats : DmlDecomposeStats} (hwf : WellFormed st)
    (hrestores : ∀ r ∈ claimedRows decomposeIds dropIds st, l.Restores r)
    (h : decomposeSegmentsForDml l shapeMatches decomposeIds dropIds st = .ok (st', stats)) :
    content l st' +
        ↑(((droppedSegments dropIds st).flatMap (liveRows st.tombstones)).map l.read) =
      content l st := by
  rcases decomposeSegmentsForDml_cases h with ⟨hnoop, heq, -⟩ | ⟨-, hdec⟩
  · have hnone : droppedSegments dropIds st = [] := by
      rcases hnoop with ⟨-, rfl⟩ | hplain
      · simp [droppedSegments]
      · simp [droppedSegments, hwf.plain hplain]
    rw [heq, hnone, List.flatMap_nil, List.map_nil, Multiset.coe_nil, add_zero]
  · have hcontent := content_decomposed hdec
    rw [map_restored hdec.restores hrestores, add_right_comm] at hcontent
    exact add_right_cancel hcontent

theorem content_decompress {l : Layout ρ κ} {st st' : State ρ}
    (hkeeps : KeepsRows l st .decompress) (h : decompressPartition l st = .ok st') :
    content l st' = content l st := by
  rcases decompressPartition_cases h with ⟨-, rfl⟩ | ⟨hcompressed, rows, hrows, rfl⟩
  · rfl
  · have hrestores := hkeeps.restores
    simp only [literalRows, hcompressed, if_true] at hrestores
    rw [map_restored hrows hrestores]
    simp only [content, State.heapRows, List.flatMap_nil, List.map_nil, Multiset.coe_nil, zero_add,
      List.map_append, List.map_map, Function.comp_def, ← Multiset.coe_add]
    abel

variable [DecidableEq κ]

theorem content_folded {l : Layout ρ κ} {st : State ρ} (hnone : st.tombstones = ∅)
    (hreads : ∀ r ∈ st.heapRows, l.read r = r) :
    content l (foldedState l st) = content l st := by
  have hwrites := segmentRows_writes l (firstNewId st) st.heapRows
  have hrows : ((((segmentRows l (firstNewId st) st.heapRows).flatMap Segment.rows).map l.read :
      List ρ) : Multiset ρ) = st.heapRows := by
    have hsame : st.heapRows.map l.read = st.heapRows :=
      (List.map_congr_left hreads).trans (List.map_id' _)
    have hperm := hwrites.rows_perm.map l.read
    rw [hsame] at hperm
    exact Multiset.coe_eq_coe.mpr hperm
  rw [content, content]
  simp only [foldedState, State.heapRows, hnone, liveRows_none, List.flatMap_append, List.map_append,
    ← Multiset.coe_add, List.map_nil, Multiset.coe_nil, add_zero]
  congr 1

theorem content_compact {l : Layout ρ κ} {shapeMatches : Bool} {st st' : State ρ}
    (hwf : WellFormed st) (hkeeps : KeepsRows l st (.compact shapeMatches))
    (h : compactPartition l shapeMatches st = .ok st') : content l st' = content l st := by
  rcases compactPartition_cases h with ⟨-, rfl⟩ | ⟨hcompressed, mid, hmid, hfold⟩
  · rfl
  · obtain ⟨dec, stats, hdec, -, hnone, rfl⟩ := rewriteTombstoned_cases hwf hcompressed hmid
    have hcontent := content_decompose hwf hkeeps.restores hdec
    have hdropped : droppedSegments ∅ st = [] := by simp [droppedSegments]
    rw [hdropped, List.flatMap_nil, List.map_nil, Multiset.coe_nil, add_zero] at hcontent
    rcases hfold with ⟨-, rfl⟩ | ⟨-, -, rfl⟩
    · exact hcontent
    · have hreads : ∀ r ∈ dec.heapRows, l.read r = r := by
        intro r hr
        have hheap := hkeeps.reads
        simp only [compressedRows, hcompressed, if_true] at hheap
        rcases decomposeSegmentsForDml_cases hdec with ⟨-, rfl, -⟩ | ⟨-, hdec⟩
        · exact hheap r hr
        · rw [State.heapRows, hdec.heap_eq, List.map_append] at hr
          rcases List.mem_append.mp hr with hold | hnew
          · exact hheap r hold
          · rw [map_restored hdec.restores hkeeps.restores] at hnew
            simp only [List.map_map, List.mem_map, Function.comp_apply] at hnew
            obtain ⟨claimed, hclaimed, rfl⟩ := hnew
            exact hkeeps.reads_again claimed hclaimed
      have hfolded : content l (foldedState l { dec with hasTombstones := false }) =
          content l { dec with hasTombstones := false } := content_folded hnone hreads
      rw [hfolded]
      exact hcontent

theorem content_compress {l : Layout ρ κ} {st st' : State ρ} (hwf : WellFormed st)
    (hkeeps : KeepsRows l st .compress) (h : compressPartition l st = .ok st') :
    content l st' = content l st := by
  rcases compressPartition_cases h with ⟨-, rfl⟩ | ⟨hplain, -, -, rfl⟩
  · rfl
  · have hwrites := (segmentRows_writes l 1 st.heapRows).rows_perm.map l.read
    have hreads := hkeeps.reads
    simp only [compressedRows, hplain, Bool.false_eq_true, if_false] at hreads
    have hsame : st.heapRows.map l.read = st.heapRows :=
      (List.map_congr_left hreads).trans (List.map_id' _)
    rw [hsame] at hwrites
    rw [content, content, hwf.plain hplain]
    simp only [State.heapRows, liveRows_none, List.flatMap_nil, List.map_nil, Multiset.coe_nil, add_zero,
      zero_add]
    exact Multiset.coe_eq_coe.mpr hwrites

/-- An operation that keeps the rows it moves changes the content by what the user
inserted and deleted. -/
theorem content_performed {l : Layout ρ κ} {st st' : State ρ} {op : Op ρ} {reported : ℕ}
    (hwf : WellFormed st) (hkeeps : KeepsRows l st op) (h : Performed l st op st' reported) :
    content l st' + deletedRows l st op = content l st + insertedRows op := by
  cases op with
  | compress => simpa [deletedRows, insertedRows] using content_compress hwf hkeeps h.1
  | insert rows memoized =>
      obtain ⟨rfl, -⟩ := h
      simp only [content, insertRows, State.heapRows, deletedRows, insertedRows, List.map_append,
        List.map_map, Function.comp_def, List.map_id', ← Multiset.coe_add]
      abel
  | deleteLoose p =>
      obtain ⟨rfl, -⟩ := h
      have hfilter : (st.heap.filter fun r => !p r.row).map HeapRow.row =
          st.heapRows.filter fun r => !p r := by
        rw [State.heapRows, List.filter_map]
        rfl
      have hperm := List.filter_append_perm p st.heapRows
      rw [← Multiset.coe_eq_coe, ← Multiset.coe_add] at hperm
      simp only [content, deleteLoose, deletedRows, insertedRows, add_zero, ← hperm]
      rw [State.heapRows, hfilter]
      abel
  | tombstoneDelete targets =>
      obtain ⟨rfl, -⟩ := h
      rw [content_tombstoned l (insertDmlTombstones_spec hwf targets)]
      exact (add_zero _).symm
  | decompose shapeMatches decomposeIds dropIds =>
      obtain ⟨stats, hdec, -⟩ := h
      rw [deletedRows, content_decompose hwf hkeeps.restores hdec]
      exact (add_zero _).symm
  | compact shapeMatches =>
      simpa [deletedRows, insertedRows] using content_compact hwf hkeeps h.1
  | decompress => simpa [deletedRows, insertedRows] using content_decompress hkeeps h.1

/-! ## Runs -/

/-- An operation changes the content by what the user inserted and deleted, and by
nothing else. -/
def ContentKept (l : Layout ρ κ) (st : State ρ) (op : Op ρ) : Prop :=
  ∀ st', step l st op = .ok st' →
    content l st' + deletedRows l st op = content l st + insertedRows op

/-- What the successful operations of a run deleted and inserted. -/
noncomputable def runEffect (l : Layout ρ κ) (st : State ρ) : List (Op ρ) → Multiset ρ × Multiset ρ
  | [] => (0, 0)
  | op :: ops =>
      let rest := runEffect l (Support.Machine.next (step l) st op) ops
      match step l st op with
      | .ok _ => (deletedRows l st op + rest.1, insertedRows op + rest.2)
      | .error _ => rest

theorem contentKept_of_keepsRows {l : Layout ρ κ} {st : State ρ} {op : Op ρ} (hwf : WellFormed st)
    (hkeeps : KeepsRows l st op) : ContentKept l st op := by
  intro st' hstep
  obtain ⟨reported, hop⟩ := performed_of_step hstep
  exact content_performed hwf hkeeps hop

theorem content_run {l : Layout ρ κ} {st : State ρ} {ops : List (Op ρ)}
    (hkept : Support.Machine.Along (step l) (ContentKept l) st ops) :
    content l (Support.Machine.run (step l) st ops) + (runEffect l st ops).1 =
      content l st + (runEffect l st ops).2 := by
  induction ops generalizing st with
  | nil => rfl
  | cons op ops ih =>
      have hrest := ih hkept.2
      cases hstep : step l st op with
      | error e =>
          have hnext := Support.Machine.next_of_error hstep
          rw [hnext] at hrest
          simp only [Support.Machine.run, List.foldl_cons, runEffect, hstep, hnext]
          exact hrest
      | ok st' =>
          have hnext := Support.Machine.next_of_ok hstep
          have hone := hkept.1 st' hstep
          rw [hnext] at hrest
          simp only [Support.Machine.run, List.foldl_cons, runEffect, hstep, hnext]
          calc content l (Support.Machine.run (step l) st' ops) +
                (deletedRows l st op + (runEffect l st' ops).1)
              = (content l (Support.Machine.run (step l) st' ops) + (runEffect l st' ops).1) +
                  deletedRows l st op := by abel
            _ = (content l st' + deletedRows l st op) + (runEffect l st' ops).2 := by
                rw [hrest]
                abel
            _ = content l st + (insertedRows op + (runEffect l st' ops).2) := by
                rw [hone]
                abel

/-- In a run whose operations keep the rows they move, only the user's statements change
the content. -/
theorem content_along {l : Layout ρ κ} {st : State ρ} {ops : List (Op ρ)} (hwf : WellFormed st)
    (hkeeps : Support.Machine.Along (step l) (KeepsRows l) st ops) :
    Support.Machine.Along (step l) (ContentKept l) st ops := by
  refine Support.Machine.along_of_invariant (I := WellFormed) ?_
    (fun st op hwf hkeeps => contentKept_of_keepsRows hwf hkeeps) hwf hkeeps
  intro st op st' hwf _ hstep
  obtain ⟨reported, hop⟩ := performed_of_step hstep
  exact wellFormed_performed hwf hop

/-- One row a segment, without segment-by columns, and rows that stay as they are. -/
def singleRowLayout : Layout ℕ Unit where
  hasSegmentBy := false
  segmentKey := fun _ => ()
  cursorLe := fun a b => decide (a ≤ b)
  orderLe := fun a b => decide (a ≤ b)
  segmentSize := 1
  segmentSize_pos := Nat.one_pos
  jsonExtract := false
  read := id
  restore := some

end DeltaX.Partition
