import DeltaX.Partition.Content
/-!
# Segment ids are not reused

Caches are keyed by segment id, so within the lifetime of the companion tables a
compaction must not hand out an id again.  The catalog's high-water mark and the
ids in `_meta` together bound every id ever assigned; what they cannot bound is
the end of `i32`.
-/

namespace DeltaX.Partition

open Support.Machine Support.Wrapping

variable {ρ κ : Type*}

/-! ## The high-water mark -/

/-- `GREATEST` of the largest id in `_meta` and the catalog's `max_segment_id`. -/
def highWater (st : State ρ) : ℤ := max (maxMetaId st.segments) (st.maxSegmentId.getD 0)

theorem le_maxMetaId {segments : List (Segment ρ)} {id : ℤ} (hid : id ∈ segments.map Segment.id) :
    id ≤ maxMetaId segments := by
  unfold maxMetaId
  cases hmax : (segments.map Segment.id).max? with
  | none =>
      rw [List.max?_eq_none_iff.mp hmax] at hid
      cases hid
  | some m => exact (List.max?_eq_some_iff.mp hmax).2 id hid

theorem maxMetaId_mem {segments : List (Segment ρ)} (hsegments : segments ≠ []) :
    maxMetaId segments ∈ segments.map Segment.id := by
  unfold maxMetaId
  cases hmax : (segments.map Segment.id).max? with
  | none => exact absurd (List.map_eq_nil_iff.mp (List.max?_eq_none_iff.mp hmax)) hsegments
  | some m => exact (List.max?_eq_some_iff.mp hmax).1

/-- Removing segments does not lift the largest id above what it was. -/
theorem maxMetaId_le_of_subset {segments segments' : List (Segment ρ)}
    (hsubset : ∀ seg ∈ segments', seg ∈ segments) :
    maxMetaId segments' ≤ max (maxMetaId segments) 0 := by
  by_cases hempty : segments' = []
  · subst hempty
    exact le_max_right _ _
  · obtain ⟨seg, hseg, hid⟩ := List.mem_map.mp (maxMetaId_mem hempty)
    rw [← hid]
    exact (le_maxMetaId (List.mem_map_of_mem (hsubset seg hseg))).trans (le_max_left _ _)

/-! ## Ids without overflow -/

theorem idsFrom_eq {next : ℤ} {n : ℕ} (hlow : 0 ≤ next) (hhigh : next + n ≤ 2 ^ 31) :
    idsFrom next n = (List.range n).map fun (i : ℕ) => next + (i : ℤ) := by
  induction n generalizing next with
  | zero => rfl
  | succ n ih =>
      rw [List.range_succ_eq_map, List.map_cons, List.map_map, idsFrom]
      congr 1
      · simp
      · cases n with
        | zero => rfl
        | succ n =>
            rw [wrapI32_of_lt (by omega) (by omega), ih (by omega) (by omega)]
            apply List.map_congr_left
            intro i _
            simp only [Function.comp_apply, Nat.succ_eq_add_one]
            omega

/-! ## Decompose -/

/-- The rows that a compaction folds: loose ones and those restored from tombstoned
segments. -/
def compactedRows (l : Layout ρ κ) (st : State ρ) : List ρ :=
  st.heapRows ++ restoredRows (st.tombstones.image Prod.fst) ∅ st l

theorem highWater_decomposed {l : Layout ρ κ} {decomposeIds dropIds : Finset ℤ} {st st' : State ρ}
    {stats : DmlDecomposeStats} (hmark : 0 ≤ st.maxSegmentId.getD 0)
    (h : Decomposed decomposeIds dropIds st l st' stats) :
    highWater st' = highWater st ∧ 0 ≤ st'.maxSegmentId.getD 0 := by
  have hkept : maxMetaId (keptSegments decomposeIds dropIds st) ≤ max (maxMetaId st.segments) 0 :=
    maxMetaId_le_of_subset fun seg hseg =>
      (List.mem_filter.mp (List.mem_filter.mp hseg).1).1
  unfold highWater
  rw [h.segments_eq, h.maxSegmentId_eq, Option.getD_some]
  omega

theorem highWater_decompose {l : Layout ρ κ} {shapeMatches : Bool} {decomposeIds dropIds : Finset ℤ}
    {st st' : State ρ} {stats : DmlDecomposeStats} (hmark : 0 ≤ st.maxSegmentId.getD 0)
    (h : decomposeSegmentsForDml l shapeMatches decomposeIds dropIds st = .ok (st', stats)) :
    highWater st' = highWater st ∧ 0 ≤ st'.maxSegmentId.getD 0 ∧
      ∀ id ∈ st'.segmentIds, id ∈ st.segmentIds := by
  rcases decomposeSegmentsForDml_cases h with ⟨-, rfl, -⟩ | ⟨-, hdec⟩
  · exact ⟨rfl, hmark, fun _ hid => hid⟩
  · obtain ⟨hwater, hmark'⟩ := highWater_decomposed hmark hdec
    refine ⟨hwater, hmark', ?_⟩
    intro id hid
    rw [State.segmentIds, hdec.segments_eq] at hid
    exact ((List.filter_sublist.trans List.filter_sublist).map Segment.id).subset hid

theorem heapRows_decompose {l : Layout ρ κ} {shapeMatches : Bool} {st st' : State ρ}
    {stats : DmlDecomposeStats}
    (h : decomposeSegmentsForDml l shapeMatches (st.tombstones.image Prod.fst) ∅ st =
      .ok (st', stats)) (hwf : WellFormed st) : st'.heapRows = compactedRows l st := by
  rcases decomposeSegmentsForDml_cases h with ⟨hnoop, heq, -⟩ | ⟨-, hdec⟩
  · have hnone : st.tombstones = ∅ := by
      rcases hnoop with ⟨hids, -⟩ | hplain
      · exact Finset.image_eq_empty.mp hids
      · exact hwf.tombstones_eq_empty hplain
    rw [heq]
    simp [compactedRows, restoredRows, claimedRows, claimedSegments, hnone]
  · simp [compactedRows, State.heapRows, hdec.heap_eq, Function.comp_def]

/-! ## The ids of a run -/

variable [DecidableEq κ]

def newIds (l : Layout ρ κ) (st : State ρ) : Op ρ → List ℤ
  | .compact shapeMatches =>
      match rewriteTombstoned l shapeMatches st, compactPartition l shapeMatches st with
      | .ok mid, .ok st' => st'.segmentIds.drop mid.segments.length
      | _, _ => []
  | _ => []

/-- The ids assigned so far in the lifetime of the companion tables: compression
creates the tables, decompression drops them. -/
def record (l : Layout ρ κ) (st : State ρ) (assigned : List ℤ) (op : Op ρ) (st' : State ρ) :
    List ℤ :=
  match op with
  | .compress => if st.isCompressed then assigned else st'.segmentIds
  | .decompress => if st.isCompressed then [] else assigned
  | op => assigned ++ newIds l st op

/-- A partition together with the ids assigned so far. -/
structure Traced (ρ : Type*) where
  state : State ρ
  assigned : List ℤ

def tracedStep (l : Layout ρ κ) (x : Traced ρ) (op : Op ρ) : Except OpError (Traced ρ) :=
  (step l x.state op).map fun st' => ⟨st', record l x.state x.assigned op st'⟩

def FreshIds (l : Layout ρ κ) (x : Traced ρ) (op : Op ρ) : Prop :=
  (newIds l x.state op).Pairwise (· < ·) ∧
    ∀ new ∈ newIds l x.state op, ∀ old ∈ x.assigned, old < new

/-- A compaction does not run past the end of `i32`. -/
def IdsFit (l : Layout ρ κ) (x : Traced ρ) : Op ρ → Prop
  | .compact _ =>
      highWater x.state +
        (segmentRows l (wrapI32 (highWater x.state + 1)) (compactedRows l x.state)).length < 2 ^ 31
  | _ => True

/-! ## The invariant -/

structure Bounded (x : Traced ρ) : Prop where
  wellFormed : WellFormed x.state
  segments_assigned : ∀ id ∈ x.state.segmentIds, id ∈ x.assigned
  assigned_le : ∀ id ∈ x.assigned, id ≤ highWater x.state
  mark_nonneg : 0 ≤ x.state.maxSegmentId.getD 0

theorem highWater_nonneg {x : Traced ρ} (h : Bounded x) : 0 ≤ highWater x.state :=
  h.mark_nonneg.trans (le_max_right _ _)

theorem segmentIds_folded (l : Layout ρ κ) (st : State ρ) :
    (foldedState l st).segmentIds =
      st.segmentIds ++ idsFrom (firstNewId st) (segmentRows l (firstNewId st) st.heapRows).length := by
  have hwrites := segmentRows_writes l (firstNewId st) st.heapRows
  simp only [foldedState, State.segmentIds, List.map_append, hwrites.ids_eq]

theorem highWater_folded (l : Layout ρ κ) {st : State ρ} (hmark : 0 ≤ st.maxSegmentId.getD 0) :
    highWater st ≤ highWater (foldedState l st) := by
  have hkept : maxMetaId st.segments ≤ max (maxMetaId (foldedState l st).segments) 0 :=
    maxMetaId_le_of_subset fun seg hseg => List.mem_append_left _ hseg
  have hsame : (foldedState l st).maxSegmentId = st.maxSegmentId := rfl
  unfold highWater
  rw [hsame]
  omega

/-- The ids of a compaction: those of the segments that stay, and new ones from the
high-water mark on. -/
structure CompactedIds (l : Layout ρ κ) (st st' : State ρ) (new : List ℤ) : Prop where
  new_eq : ∃ n ≤ (segmentRows l (wrapI32 (highWater st + 1)) (compactedRows l st)).length,
    new = idsFrom (wrapI32 (highWater st + 1)) n
  segmentIds_eq : ∃ kept, st'.segmentIds = kept ++ new ∧ ∀ id ∈ kept, id ∈ st.segmentIds
  highWater_le : highWater st ≤ highWater st'
  mark_nonneg : 0 ≤ st'.maxSegmentId.getD 0

theorem compactedIds {l : Layout ρ κ} {shapeMatches : Bool} {x : Traced ρ} {st' : State ρ}
    (h : Bounded x) (hcompact : compactPartition l shapeMatches x.state = .ok st') :
    CompactedIds l x.state st' (newIds l x.state (.compact shapeMatches)) := by
  rcases compactPartition_cases hcompact with ⟨hplain, heq⟩ | ⟨hcompressed, mid, hmid, hfold⟩
  · -- a partition without segments
    have hempty : st'.segmentIds = [] := by
      rw [heq, State.segmentIds, h.wellFormed.plain hplain, List.map_nil]
    have hnone : newIds l x.state (.compact shapeMatches) = [] := by
      simp only [newIds, hcompact]
      split
      · rename_i hok
        cases hok
        rw [hempty, List.drop_nil]
      · rfl
    rw [hnone]
    exact ⟨⟨0, Nat.zero_le _, rfl⟩, ⟨[], hempty, fun _ hid => by cases hid⟩, by rw [heq],
      by rw [heq]; exact h.mark_nonneg⟩
  · have hnew : newIds l x.state (.compact shapeMatches) =
        st'.segmentIds.drop mid.segments.length := by simp [newIds, hmid, hcompact]
    obtain ⟨dec, stats, hdec, -, -, hmideq⟩ := rewriteTombstoned_cases h.wellFormed hcompressed hmid
    obtain ⟨hwater, hmark, hids⟩ := highWater_decompose h.mark_nonneg hdec
    have hrows := heapRows_decompose hdec h.wellFormed
    -- the flag is all in which `mid` differs
    have hwatermid : highWater mid = highWater x.state := by rw [← hwater, hmideq]; rfl
    have hmarkmid : 0 ≤ mid.maxSegmentId.getD 0 := by rw [hmideq]; exact hmark
    have hidsmid : ∀ id ∈ mid.segmentIds, id ∈ x.state.segmentIds := by rw [hmideq]; exact hids
    have hrowsmid : mid.heapRows = compactedRows l x.state := by rw [← hrows, hmideq]; rfl
    rcases hfold with ⟨-, rfl⟩ | ⟨-, -, rfl⟩
    · have hnone : newIds l x.state (.compact shapeMatches) = [] := by
        rw [hnew]
        exact List.drop_eq_nil_of_le (by simp [State.segmentIds])
      rw [hnone]
      exact ⟨⟨0, Nat.zero_le _, rfl⟩, ⟨mid.segmentIds, (List.append_nil _).symm, hidsmid⟩,
        hwatermid.ge, hmarkmid⟩
    · have hfirst : firstNewId mid = wrapI32 (highWater x.state + 1) := by
        rw [← hwatermid]
        rfl
      have hsegs := segmentIds_folded l mid
      rw [hfirst, hrowsmid] at hsegs
      rw [hsegs, List.drop_left' (by simp [State.segmentIds])] at hnew
      rw [hnew]
      exact ⟨⟨_, le_rfl, rfl⟩, ⟨mid.segmentIds, hsegs, hidsmid⟩,
        hwatermid ▸ highWater_folded l hmarkmid, hmarkmid⟩

/-- Ids that fit are counted up from the high-water mark. -/
theorem freshIds_of_fit {l : Layout ρ κ} {x : Traced ρ} {op : Op ρ} (h : Bounded x)
    (hfit : IdsFit l x op) : FreshIds l x op := by
  cases op with
  | compact shapeMatches =>
      cases hcompact : compactPartition l shapeMatches x.state with
      | error e =>
          have hnone : newIds l x.state (.compact shapeMatches) = [] := by
            simp only [newIds, hcompact]
            split
            · rename_i hok
              cases hok
            · rfl
          simp [FreshIds, hnone]
      | ok st' =>
          obtain ⟨n, hn, hnew⟩ := (compactedIds h hcompact).new_eq
          have hwater := highWater_nonneg h
          have hbound : highWater x.state + n < 2 ^ 31 := by
            simp only [IdsFit] at hfit
            omega
          by_cases hzero : n = 0
          · subst hzero
            simp [FreshIds, hnew, idsFrom]
          · rw [wrapI32_of_lt (by omega) (by omega), idsFrom_eq (by omega) (by omega)] at hnew
            rw [FreshIds, hnew]
            refine ⟨?_, ?_⟩
            · rw [List.pairwise_map]
              exact List.pairwise_lt_range.imp fun hlt => by omega
            · intro new hmem old hold
              obtain ⟨i, -, rfl⟩ := List.mem_map.mp hmem
              have hle := h.assigned_le old hold
              omega
  | _ => simp [FreshIds, newIds]

theorem bounded_fresh (rows : List ρ) : Bounded (⟨fresh rows, []⟩ : Traced ρ) where
  wellFormed := wellFormed_fresh rows
  segments_assigned := fun _ hid => hid
  assigned_le := fun _ hid => by cases hid
  mark_nonneg := le_rfl

theorem exists_of_tracedStep {l : Layout ρ κ} {x x' : Traced ρ} {op : Op ρ}
    (hstep : tracedStep l x op = .ok x') :
    ∃ st', step l x.state op = .ok st' ∧ x' = ⟨st', record l x.state x.assigned op st'⟩ := by
  cases hst' : step l x.state op with
  | error e => simp [tracedStep, hst', Except.map] at hstep
  | ok st' => exact ⟨st', rfl, by simpa [tracedStep, hst', Except.map] using hstep.symm⟩

theorem bounded_compress {l : Layout ρ κ} {x : Traced ρ} {st' : State ρ} (h : Bounded x)
    (hwf : WellFormed st') (hcompress : compressPartition l x.state = .ok st') :
    Bounded ⟨st', record l x.state x.assigned .compress st'⟩ := by
  rcases compressPartition_cases hcompress with ⟨-, rfl⟩ | ⟨hplain, -, -, rfl⟩
  · by_cases hcompressed : x.state.isCompressed = true
    · simp only [record, if_pos hcompressed]
      exact ⟨hwf, h.segments_assigned, h.assigned_le, h.mark_nonneg⟩
    · simp only [record, if_neg hcompressed]
      exact ⟨hwf, fun _ hid => hid, fun id hid => h.assigned_le id (h.segments_assigned id hid),
        h.mark_nonneg⟩
  · simp only [record, hplain, Bool.false_eq_true, if_false]
    exact ⟨hwf, fun _ hid => hid, fun id hid => (le_maxMetaId hid).trans (le_max_left _ _),
      h.mark_nonneg⟩

theorem bounded_compact {l : Layout ρ κ} {shapeMatches : Bool} {x : Traced ρ} {st' : State ρ}
    (h : Bounded x) (hwf : WellFormed st')
    (hcompact : compactPartition l shapeMatches x.state = .ok st') :
    Bounded ⟨st', record l x.state x.assigned (.compact shapeMatches) st'⟩ := by
  have hcompacted := compactedIds h hcompact
  obtain ⟨kept, hsegs, hkept⟩ := hcompacted.segmentIds_eq
  simp only [record]
  refine ⟨hwf, ?_, ?_, hcompacted.mark_nonneg⟩
  · intro id hid
    rw [hsegs] at hid
    rcases List.mem_append.mp hid with hold | hnew
    · exact List.mem_append_left _ (h.segments_assigned id (hkept id hold))
    · exact List.mem_append_right _ hnew
  · intro id hid
    rcases List.mem_append.mp hid with hold | hnew
    · exact (h.assigned_le id hold).trans hcompacted.highWater_le
    · have hmem : id ∈ st'.segmentIds := by
        rw [hsegs]
        exact List.mem_append_right _ hnew
      exact (le_maxMetaId hmem).trans (le_max_left _ _)

theorem bounded_step {l : Layout ρ κ} {x x' : Traced ρ} {op : Op ρ} (h : Bounded x)
    (hstep : tracedStep l x op = .ok x') : Bounded x' := by
  obtain ⟨st', hst', rfl⟩ := exists_of_tracedStep hstep
  obtain ⟨reported, hop⟩ := performed_of_step hst'
  have hwf := wellFormed_performed h.wellFormed hop
  cases op with
  | compress => exact bounded_compress h hwf hop.1
  | insert rows memoized =>
      obtain ⟨rfl, -⟩ := hop
      simp only [record, newIds, List.append_nil]
      exact ⟨hwf, h.segments_assigned, h.assigned_le, h.mark_nonneg⟩
  | deleteLoose p =>
      obtain ⟨rfl, -⟩ := hop
      simp only [record, newIds, List.append_nil]
      exact ⟨hwf, h.segments_assigned, h.assigned_le, h.mark_nonneg⟩
  | tombstoneDelete targets =>
      obtain ⟨rfl, -⟩ := hop
      have hspec := insertDmlTombstones_spec h.wellFormed targets
      simp only [record, newIds, List.append_nil]
      refine ⟨hwf, ?_, ?_, ?_⟩
      · simpa only [State.segmentIds, hspec.segments_eq] using h.segments_assigned
      · simpa only [highWater, hspec.segments_eq, hspec.maxSegmentId_eq] using h.assigned_le
      · simpa only [hspec.maxSegmentId_eq] using h.mark_nonneg
  | decompose shapeMatches decomposeIds dropIds =>
      obtain ⟨stats, hdec, -⟩ := hop
      obtain ⟨hwater, hmark, hids⟩ := highWater_decompose h.mark_nonneg hdec
      simp only [record, newIds, List.append_nil]
      exact ⟨hwf, fun id hid => h.segments_assigned id (hids id hid), hwater ▸ h.assigned_le, hmark⟩
  | compact shapeMatches => exact bounded_compact h hwf hop.1
  | decompress =>
      rcases decompressPartition_cases hop.1 with ⟨hplain, rfl⟩ | ⟨hcompressed, rows, -, rfl⟩
      · simp only [record, hplain, Bool.false_eq_true, if_false]
        exact ⟨hwf, h.segments_assigned, h.assigned_le, h.mark_nonneg⟩
      · simp only [record, hcompressed, if_true]
        exact ⟨hwf, fun _ hid => hid, fun _ hid => (by cases hid), le_rfl⟩

theorem nodup_append_of_fresh {l : Layout ρ κ} {x : Traced ρ} {op : Op ρ}
    (hnodup : x.assigned.Nodup) (hfresh : FreshIds l x op) :
    (x.assigned ++ newIds l x.state op).Nodup := by
  rw [List.nodup_append]
  refine ⟨hnodup, hfresh.1.imp ne_of_lt, ?_⟩
  intro old hold new hnew
  exact (hfresh.2 new hnew old hold).ne

/-- Fresh ids keep all that were handed out in one lifetime distinct. -/
theorem nodup_assigned_step {l : Layout ρ κ} {x x' : Traced ρ} {op : Op ρ} (h : Bounded x)
    (hnodup : x.assigned.Nodup) (hfresh : FreshIds l x op) (hstep : tracedStep l x op = .ok x') :
    x'.assigned.Nodup := by
  have hwf := (bounded_step h hstep).wellFormed
  obtain ⟨st', -, rfl⟩ := exists_of_tracedStep hstep
  have hfresh := nodup_append_of_fresh hnodup hfresh
  cases op with
  | compress =>
      simp only [record]
      split
      · exact hnodup
      · exact hwf.ids_nodup
  | decompress =>
      simp only [record]
      split
      · exact List.nodup_nil
      · exact hnodup
  | _ => exact hfresh

/-- In every run whose compactions stay within `i32`, each compaction hands out ids
larger than all that were handed out before, so that no two segments of a lifetime
share one. -/
theorem freshIds_along (l : Layout ρ κ) (rows : List ρ) {ops : List (Op ρ)}
    (hfit : Along (tracedStep l) (IdsFit l) ⟨fresh rows, []⟩ ops) :
    Along (tracedStep l) (FreshIds l) ⟨fresh rows, []⟩ ops ∧
      (run (tracedStep l) ⟨fresh rows, []⟩ ops).assigned.Nodup := by
  have hstep : ∀ x op x', Bounded x ∧ x.assigned.Nodup → IdsFit l x op →
      tracedStep l x op = .ok x' → Bounded x' ∧ x'.assigned.Nodup := by
    intro x op x' h hfit hx'
    have hfresh := freshIds_of_fit h.1 hfit
    exact ⟨bounded_step h.1 hx', nodup_assigned_step h.1 h.2 hfresh hx'⟩
  have hinit : Bounded (⟨fresh rows, []⟩ : Traced ρ) ∧ ([] : List ℤ).Nodup :=
    ⟨bounded_fresh rows, List.nodup_nil⟩
  constructor
  · exact along_of_invariant hstep (fun _ _ h hfit => freshIds_of_fit h.1 hfit) hinit hfit
  · exact (invariant_run hstep hinit hfit).2

theorem segmentRows_singleton (next : ℤ) (r : ℕ) :
    segmentRows singleRowLayout next [r] = [⟨next, [r]⟩] := by
  simp [segmentRows, Flush.append, Flush.boundary, Flush.flush, flushWithSplitting, singleRowLayout]

/-- A row is compressed, another one inserted and compacted. -/
theorem freshIds_along_sample :
    Along (tracedStep singleRowLayout) (FreshIds singleRowLayout) ⟨fresh [7], []⟩
        [.compress, .insert [8] false, .compact true] ∧
      (run (tracedStep singleRowLayout) ⟨fresh [7], []⟩
        [.compress, .insert [8] false, .compact true]).assigned.Nodup := by
  refine freshIds_along singleRowLayout [7] ⟨trivial, trivial, ?_, trivial⟩
  have h1 : next (tracedStep singleRowLayout) ⟨fresh [7], []⟩ .compress =
      ⟨⟨true, [⟨1, [7]⟩], ∅, [], some 1, none, false, false⟩, [1]⟩ := by
    apply next_of_ok
    simp [tracedStep, step, perform, compressPartition, fresh, State.heapRows, segmentRows_singleton,
      record, State.segmentIds, Except.map, bind, Except.bind, pure, Except.pure]
  have h2 : next (tracedStep singleRowLayout)
      (⟨⟨true, [⟨1, [7]⟩], ∅, [], some 1, none, false, false⟩, [1]⟩ : Traced ℕ) (.insert [8] false) =
        ⟨⟨true, [⟨1, [7]⟩], ∅, [⟨8, false⟩], some 1, none, true, false⟩, [1]⟩ := rfl
  rw [h1, h2]
  simp [IdsFit, highWater, maxMetaId, compactedRows, State.heapRows, restoredRows, claimedRows,
    claimedSegments, segmentRows_singleton]

/-! ## The end of `i32` -/

theorem length_segmentRows_single (next : ℤ) (rows : List ℕ) :
    (segmentRows singleRowLayout next rows).length = rows.length := by
  have hwrites := segmentRows_writes singleRowLayout next rows
  have hsizes : (segmentRows singleRowLayout next rows).map (fun seg => seg.rows.length) =
      (segmentRows singleRowLayout next rows).map fun _ => 1 := by
    apply List.map_congr_left
    intro seg hseg
    have hsize := hwrites.sizes seg hseg
    have hone : singleRowLayout.segmentSize = 1 := rfl
    omega
  have hlength := hwrites.rows_perm.length_eq
  rw [List.length_flatMap, hsizes] at hlength
  simpa using hlength

theorem segmentIds_single (rows : List ℕ) (hrows : rows.length < 2 ^ 31) :
    (segmentRows singleRowLayout 1 rows).map Segment.id =
      (List.range rows.length).map fun (i : ℕ) => 1 + (i : ℤ) := by
  rw [(segmentRows_writes singleRowLayout 1 rows).ids_eq, length_segmentRows_single,
    idsFrom_eq (by omega) (by omega)]

/-- A partition whose ids have reached the end of `i32`. -/
def exhausted (n : ℕ) : State ℕ where
  isCompressed := true
  segments := segmentRows singleRowLayout 1 (List.replicate n 0)
  tombstones := ∅
  heap := []
  rowCount := some n
  maxSegmentId := none
  hasLooseRows := false
  hasTombstones := false

theorem segmentIds_exhausted {n : ℕ} (hn : n + 1 = 2 ^ 31) :
    (exhausted n).segmentIds = (List.range n).map fun (i : ℕ) => 1 + (i : ℤ) := by
  have hids := segmentIds_single (List.replicate n 0) (by rw [List.length_replicate]; omega)
  rwa [List.length_replicate] at hids

theorem nodup_exhausted {n : ℕ} (hn : n + 1 = 2 ^ 31) : (exhausted n).segmentIds.Nodup := by
  rw [segmentIds_exhausted hn]
  exact List.nodup_range.map fun i j heq => by omega

theorem compress_exhausted {n : ℕ} (hn : n + 1 = 2 ^ 31) :
    step singleRowLayout (fresh (List.replicate n 0)) .compress = .ok (exhausted n) := by
  have hheap : (fresh (List.replicate n 0)).heapRows = List.replicate n 0 := by
    simp [fresh, State.heapRows]
  have hlength : (fresh (List.replicate n 0)).heap.length = n := by simp [fresh]
  have hnonempty : (fresh (List.replicate n 0)).heap ≠ [] := by
    rw [← List.length_pos_iff, hlength]
    omega
  have hcompress : compressPartition singleRowLayout (fresh (List.replicate n 0)) = .ok _ :=
    compressPartition_writes rfl hnonempty (by rw [hheap]; exact nodup_exhausted hn)
  rw [hheap, hlength] at hcompress
  rw [step, perform, hcompress]
  rfl

theorem highWater_exhausted {n : ℕ} (hn : n + 1 = 2 ^ 31) : highWater (exhausted n) = n := by
  have hids := segmentIds_exhausted hn
  have hmax : maxMetaId (exhausted n).segments = n := by
    refine le_antisymm ?_ ?_
    · have hne : (exhausted n).segments ≠ [] := by
        rw [Ne, ← List.length_eq_zero_iff, exhausted, length_segmentRows_single,
          List.length_replicate]
        omega
      have hmem := maxMetaId_mem hne
      change maxMetaId (exhausted n).segments ∈ (exhausted n).segmentIds at hmem
      rw [hids] at hmem
      obtain ⟨i, hi, heq⟩ := List.mem_map.mp hmem
      rw [← heq]
      have := List.mem_range.mp hi
      omega
    · have hmem : (n : ℤ) ∈ (exhausted n).segmentIds := by
        rw [hids]
        exact List.mem_map.mpr ⟨n - 1, List.mem_range.mpr (by omega), by omega⟩
      exact le_maxMetaId hmem
  rw [highWater, hmax]
  have hmark : (exhausted n).maxSegmentId.getD 0 = 0 := rfl
  rw [hmark]
  omega

/-- One more row is compacted under the smallest `i32`. -/
theorem compact_exhausted {n : ℕ} (hn : n + 1 = 2 ^ 31) :
    newIds singleRowLayout (insertRows (exhausted n) [0] false) (.compact true) = [-2 ^ 31] := by
  have hrewrite : rewriteTombstoned singleRowLayout true (insertRows (exhausted n) [0] false) =
      .ok (insertRows (exhausted n) [0] false) := rfl
  have hfirst : firstNewId (insertRows (exhausted n) [0] false) = -2 ^ 31 := by
    change wrapI32 (highWater (exhausted n) + 1) = -2 ^ 31
    have hend : (n : ℤ) + 1 = 2 ^ 31 := by exact_mod_cast hn
    rw [highWater_exhausted hn, hend]
    decide
  have hids : (foldedState singleRowLayout (insertRows (exhausted n) [0] false)).segmentIds =
      (exhausted n).segmentIds ++ [-2 ^ 31] := by
    have hfolded := segmentIds_folded singleRowLayout (insertRows (exhausted n) [0] false)
    rwa [hfirst, length_segmentRows_single] at hfolded
  have hnodup : (foldedState singleRowLayout (insertRows (exhausted n) [0] false)).segmentIds.Nodup := by
    rw [hids, List.nodup_append]
    refine ⟨nodup_exhausted hn, by simp, ?_⟩
    intro a ha b hb
    rw [segmentIds_exhausted hn] at ha
    obtain ⟨i, -, rfl⟩ := List.mem_map.mp ha
    rw [List.mem_singleton.mp hb]
    omega
  have hcompact : compactPartition singleRowLayout true (insertRows (exhausted n) [0] false) =
      .ok _ := compactPartition_folds rfl hrewrite (by simp [insertRows]) rfl hnodup
  simp only [newIds, hrewrite, hcompact, hids]
  exact List.drop_left' (by simp [State.segmentIds, insertRows])

/-- After `2 ^ 31 - 1` segments the next compaction goes on below all of them. -/
theorem freshIds_not_along {n : ℕ} (hn : n + 1 = 2 ^ 31) :
    ¬ Along (tracedStep singleRowLayout) (FreshIds singleRowLayout)
      ⟨fresh (List.replicate n 0), []⟩ [.compress, .insert [0] false, .compact true] := by
  rintro ⟨-, -, ⟨-, hfresh⟩, -⟩
  have h1 : next (tracedStep singleRowLayout) ⟨fresh (List.replicate n 0), []⟩ .compress =
      ⟨exhausted n, (exhausted n).segmentIds⟩ := by
    apply next_of_ok
    rw [tracedStep, compress_exhausted hn]
    rfl
  have h2 : next (tracedStep singleRowLayout) ⟨exhausted n, (exhausted n).segmentIds⟩
      (.insert [0] false) =
        ⟨insertRows (exhausted n) [0] false, (exhausted n).segmentIds ++ []⟩ := rfl
  rw [h1, h2] at hfresh
  have hone : (1 : ℤ) ∈ (exhausted n).segmentIds ++ [] := by
    rw [List.append_nil, segmentIds_exhausted hn]
    exact List.mem_map.mpr ⟨0, List.mem_range.mpr (by omega), rfl⟩
  have hnew : (-2 ^ 31 : ℤ) ∈ newIds singleRowLayout (insertRows (exhausted n) [0] false)
      (.compact true) := by
    rw [compact_exhausted hn]
    exact List.mem_singleton.mpr rfl
  have hlt := hfresh _ hnew _ hone
  omega

/-- The largest partition that one-row segments can number. -/
theorem freshIds_run_out :
    ¬ Along (tracedStep singleRowLayout) (FreshIds singleRowLayout)
      ⟨fresh (List.replicate (2 ^ 31 - 1) 0), []⟩ [.compress, .insert [0] false, .compact true] :=
  freshIds_not_along (Nat.sub_add_cancel Nat.one_le_two_pow)

end DeltaX.Partition
