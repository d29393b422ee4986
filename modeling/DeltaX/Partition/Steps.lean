import DeltaX.Partition.Flush
import DeltaX.Support.ListLookup
/-!
# What one operation does

For each operation the whole of its effect on a partition, and the invariant that
every operation keeps: segment ids are unique, tombstones point at rows of live
segments, and a partition that is not compressed has no segments.
-/

namespace DeltaX.Partition

open Support.Machine Support.ListLookup Support.Wrapping

variable {ρ κ : Type*}

structure WellFormed (st : State ρ) : Prop where
  ids_nodup : st.segmentIds.Nodup
  tombstoned : ∀ t ∈ st.tombstones, ∃ seg ∈ st.segments, seg.id = t.1 ∧ t.2 < seg.rows.length
  plain : st.isCompressed = false → st.segments = []

theorem WellFormed.tombstones_eq_empty {st : State ρ} (h : WellFormed st)
    (hplain : st.isCompressed = false) : st.tombstones = ∅ := by
  apply Finset.eq_empty_of_forall_notMem
  intro t ht
  obtain ⟨seg, hseg, -, -⟩ := h.tombstoned t ht
  rw [h.plain hplain] at hseg
  cases hseg

theorem WellFormed.segment_eq {st : State ρ} (h : WellFormed st) {seg seg' : Segment ρ}
    (hseg : seg ∈ st.segments) (hseg' : seg' ∈ st.segments) (heq : seg.id = seg'.id) :
    seg = seg' :=
  List.inj_on_of_nodup_map h.ids_nodup hseg hseg' heq

/-! ## Decompose -/

section Decompose

variable (decomposeIds dropIds : Finset ℤ) (st : State ρ)

def droppedSegments : List (Segment ρ) := st.segments.filter fun seg => decide (seg.id ∈ dropIds)

def claimedSegments : List (Segment ρ) :=
  (st.segments.filter fun seg => decide (seg.id ∉ dropIds)).filter fun seg =>
    decide (seg.id ∈ decomposeIds)

def keptSegments : List (Segment ρ) :=
  (st.segments.filter fun seg => decide (seg.id ∉ dropIds)).filter fun seg =>
    decide (seg.id ∉ decomposeIds)

def removedIds : List ℤ :=
  (droppedSegments dropIds st ++ claimedSegments decomposeIds dropIds st).map Segment.id

def claimedRows : List ρ :=
  (claimedSegments decomposeIds dropIds st).flatMap (liveRows st.tombstones)

def restoredRows (l : Layout ρ κ) : List ρ :=
  (claimedRows decomposeIds dropIds st).filterMap l.restore

def droppedRows : ℕ :=
  ((droppedSegments dropIds st).map fun seg =>
    seg.rows.length - tombCount st.tombstones seg.id).sum

/-- The effect of a decompose that gets past its guards. -/
structure Decomposed (l : Layout ρ κ) (st' : State ρ) (stats : DmlDecomposeStats) : Prop where
  isCompressed_eq : st'.isCompressed = true
  restores : (claimedRows decomposeIds dropIds st).mapM l.restore =
    some (restoredRows decomposeIds dropIds st l)
  segments_eq : st'.segments = keptSegments decomposeIds dropIds st
  mem_tombstones : ∀ t, t ∈ st'.tombstones ↔
    t ∈ st.tombstones ∧ t.1 ∉ removedIds decomposeIds dropIds st
  heap_eq : st'.heap = st.heap ++ (restoredRows decomposeIds dropIds st l).map fun r => ⟨r, true⟩
  rowCount_eq : ∀ n, st.rowCount = some n →
    st'.rowCount = some (n - ((claimedRows decomposeIds dropIds st).length + droppedRows dropIds st))
  maxSegmentId_eq : st'.maxSegmentId = some (max (st.maxSegmentId.getD 0) (maxMetaId st.segments))
  hasLooseRows_eq : st'.hasLooseRows =
    (st.hasLooseRows || decide (0 < (claimedRows decomposeIds dropIds st).length))
  hasTombstones_eq : st'.hasTombstones = st.hasTombstones
  stats_droppedRows : stats.droppedRows = droppedRows dropIds st

variable {decomposeIds dropIds st} {l : Layout ρ κ}

theorem removedIds_eq_nil (h : removedIds decomposeIds dropIds st = []) :
    droppedSegments dropIds st = [] ∧ claimedSegments decomposeIds dropIds st = [] :=
  List.append_eq_nil_iff.mp (List.map_eq_nil_iff.mp h)

theorem keptSegments_of_removedIds (h : removedIds decomposeIds dropIds st = []) :
    keptSegments decomposeIds dropIds st = st.segments := by
  obtain ⟨hdropped, hclaimed⟩ := removedIds_eq_nil h
  have hundropped : st.segments.filter (fun seg => decide (seg.id ∉ dropIds)) = st.segments := by
    apply List.filter_eq_self.mpr
    intro seg hseg
    have := List.filter_eq_nil_iff.mp hdropped seg hseg
    simpa using this
  rw [claimedSegments, hundropped] at hclaimed
  rw [keptSegments, hundropped]
  apply List.filter_eq_self.mpr
  intro seg hseg
  have := List.filter_eq_nil_iff.mp hclaimed seg hseg
  simpa using this

theorem restoreSegmentRows_eq_ok {tombstones : Finset (ℤ × ℕ)} {segments : List (Segment ρ)}
    {rows : List ρ} (h : restoreSegmentRows l tombstones segments = .ok rows) :
    (segments.flatMap (liveRows tombstones)).mapM l.restore = some rows := by
  unfold restoreSegmentRows at h
  split at h
  · rename_i heq
    cases h
    exact heq
  · cases h

/-- A decompose that succeeds did nothing or removed what it was asked to remove. -/
theorem decomposeSegmentsForDml_cases {shapeMatches : Bool} {st' : State ρ}
    {stats : DmlDecomposeStats}
    (h : decomposeSegmentsForDml l shapeMatches decomposeIds dropIds st = .ok (st', stats)) :
    (((decomposeIds = ∅ ∧ dropIds = ∅) ∨ st.isCompressed = false) ∧ st' = st ∧
        stats = ⟨0, 0, 0, 0⟩) ∨
      (st.isCompressed = true ∧ Decomposed decomposeIds dropIds st l st' stats) := by
  unfold decomposeSegmentsForDml at h
  split at h
  · rename_i hnoop
    cases h
    exact .inl ⟨hnoop, rfl, rfl⟩
  · rename_i hop
    have hcompressed : st.isCompressed = true := by
      by_contra hc
      exact hop (.inr (by simpa using hc))
    refine .inr ⟨hcompressed, ?_⟩
    split at h
    · cases h
    · obtain ⟨restored, hrestored, h⟩ := ok_of_bind h
      have hmapM := restoreSegmentRows_eq_ok hrestored
      obtain rfl : restored = restoredRows decomposeIds dropIds st l :=
        (filterMap_of_mapM hmapM).symm
      have hlength := length_of_mapM hmapM
      simp only at h
      split at h
      · -- nothing was claimed
        rename_i hempty
        have hnil : removedIds decomposeIds dropIds st = [] := List.isEmpty_iff.mp hempty
        obtain ⟨hdropped, hclaimed⟩ := removedIds_eq_nil hnil
        cases h
        refine ⟨hcompressed, hmapM, (keptSegments_of_removedIds hnil).symm, ?_, ?_, ?_, rfl, ?_, rfl,
          rfl⟩
        · simp [hnil]
        · simp [restoredRows, claimedRows, hclaimed]
        · intro n hn
          simp [claimedRows, droppedRows, hclaimed, hdropped, hn]
        · simp [claimedRows, hclaimed]
      · cases h
        refine ⟨hcompressed, hmapM, rfl, ?_, rfl, ?_, rfl, ?_, rfl, rfl⟩
        · intro t
          exact Finset.mem_filter
        · intro n hn
          simp only [bumpPartitionDecompose, hn, Option.getD_some, hlength]
          rfl
        · simp only [hlength]
          rfl

theorem not_mem_removedIds_of_kept {seg : Segment ρ}
    (hseg : seg ∈ keptSegments decomposeIds dropIds st) :
    seg.id ∉ removedIds decomposeIds dropIds st := by
  intro hremoved
  obtain ⟨hundropped, hkept⟩ := List.mem_filter.mp hseg
  obtain ⟨-, hdrop⟩ := List.mem_filter.mp hundropped
  obtain ⟨seg', hseg', heq⟩ := List.mem_map.mp hremoved
  rcases List.mem_append.mp hseg' with hdropped | hclaimed
  · have := (List.mem_filter.mp hdropped).2
    simp_all
  · have := (List.mem_filter.mp hclaimed).2
    simp_all

theorem mem_kept_of_not_removed {seg : Segment ρ} (hseg : seg ∈ st.segments)
    (hremoved : seg.id ∉ removedIds decomposeIds dropIds st) :
    seg ∈ keptSegments decomposeIds dropIds st := by
  have hnot : ∀ seg' ∈ droppedSegments dropIds st ++ claimedSegments decomposeIds dropIds st,
      seg'.id ≠ seg.id := by
    intro seg' hseg' heq
    exact hremoved (List.mem_map.mpr ⟨seg', hseg', heq⟩)
  have hdrop : seg.id ∉ dropIds := by
    intro hdrop
    refine hnot seg (List.mem_append_left _ (List.mem_filter.mpr ⟨hseg, ?_⟩)) rfl
    simpa using hdrop
  have hundropped : seg ∈ st.segments.filter fun seg => decide (seg.id ∉ dropIds) :=
    List.mem_filter.mpr ⟨hseg, by simpa using hdrop⟩
  refine List.mem_filter.mpr ⟨hundropped, ?_⟩
  rw [decide_eq_true_eq]
  intro hdecompose
  refine hnot seg (List.mem_append_right _ (List.mem_filter.mpr ⟨hundropped, ?_⟩)) rfl
  simpa using hdecompose

theorem Decomposed.wellFormed {st' : State ρ} {stats : DmlDecomposeStats}
    (h : Decomposed decomposeIds dropIds st l st' stats) (hwf : WellFormed st) : WellFormed st' where
  ids_nodup := by
    rw [State.segmentIds, h.segments_eq]
    exact hwf.ids_nodup.sublist ((List.filter_sublist.trans List.filter_sublist).map _)
  tombstoned := by
    intro t ht
    obtain ⟨hmem, hremoved⟩ := (h.mem_tombstones t).mp ht
    obtain ⟨seg, hseg, hid, hoff⟩ := hwf.tombstoned t hmem
    rw [h.segments_eq]
    exact ⟨seg, mem_kept_of_not_removed hseg (hid ▸ hremoved), hid, hoff⟩
  plain := by
    intro hplain
    rw [h.isCompressed_eq] at hplain
    cases hplain

theorem wellFormed_decompose {shapeMatches : Bool} {st' : State ρ} {stats : DmlDecomposeStats}
    (hwf : WellFormed st)
    (h : decomposeSegmentsForDml l shapeMatches decomposeIds dropIds st = .ok (st', stats)) :
    WellFormed st' := by
  rcases decomposeSegmentsForDml_cases h with ⟨-, rfl, -⟩ | ⟨-, hdec⟩
  · exact hwf
  · exact hdec.wellFormed hwf

end Decompose

/-! ## Tombstones -/

def Targeted (targets : List (ℤ × List ℕ)) (t : ℤ × ℕ) : Prop :=
  ∃ target ∈ targets, target.1 = t.1 ∧ t.2 ∈ target.2

theorem mem_insertOffsets (acc : Finset (ℤ × ℕ) × ℕ) (target : ℤ × List ℕ) (t : ℤ × ℕ) :
    t ∈ (insertOffsets acc target).1 ↔ t ∈ acc.1 ∨ (target.1 = t.1 ∧ t.2 ∈ target.2) := by
  have hrow : (∃ off ∈ target.2, (target.1, off) = t) ↔ target.1 = t.1 ∧ t.2 ∈ target.2 := by
    constructor
    · rintro ⟨off, hoff, rfl⟩
      exact ⟨rfl, hoff⟩
    · rintro ⟨hid, hoff⟩
      exact ⟨t.2, hoff, Prod.ext hid rfl⟩
  simp only [insertOffsets, Finset.mem_union, Finset.mem_sdiff, List.mem_toFinset, List.mem_map,
    hrow]
  by_cases ht : t ∈ acc.1 <;> simp [ht]

theorem mem_foldl_insertOffsets (targets : List (ℤ × List ℕ)) (acc : Finset (ℤ × ℕ) × ℕ)
    (t : ℤ × ℕ) :
    t ∈ (targets.foldl insertOffsets acc).1 ↔ t ∈ acc.1 ∨ Targeted targets t := by
  induction targets generalizing acc with
  | nil => simp [Targeted]
  | cons target targets ih =>
      rw [List.foldl_cons, ih, mem_insertOffsets, or_assoc]
      simp [Targeted]

/-- The statement counts exactly the rows it adds. -/
theorem card_foldl_insertOffsets (targets : List (ℤ × List ℕ)) (acc : Finset (ℤ × ℕ) × ℕ) :
    (targets.foldl insertOffsets acc).1.card + acc.2 =
      acc.1.card + (targets.foldl insertOffsets acc).2 := by
  induction targets generalizing acc with
  | nil => rfl
  | cons target targets ih =>
      have hstep : (insertOffsets acc target).1.card + acc.2 =
          acc.1.card + (insertOffsets acc target).2 := by
        simp only [insertOffsets]
        rw [Finset.card_union_of_disjoint Finset.disjoint_sdiff]
        omega
      have hrest := ih (insertOffsets acc target)
      rw [List.foldl_cons]
      omega

def State.HasRow (st : State ρ) (t : ℤ × ℕ) : Prop :=
  ∃ seg ∈ st.segments, seg.id = t.1 ∧ t.2 < seg.rows.length

theorem targeted_claimTargets {st : State ρ} (hwf : WellFormed st) (targets : List (ℤ × List ℕ))
    (t : ℤ × ℕ) : Targeted (claimTargets st targets) t ↔ Targeted targets t ∧ st.HasRow t := by
  constructor
  · rintro ⟨claimed, hclaimed, hid, hoff⟩
    obtain ⟨target, htarget, hmap⟩ := List.mem_filterMap.mp hclaimed
    obtain ⟨seg, hfind, rfl⟩ := Option.map_eq_some_iff.mp hmap
    obtain ⟨hoff, hlt⟩ := List.mem_filter.mp hoff
    have hseg : seg.id = target.1 := by simpa using List.find?_some hfind
    exact ⟨⟨target, htarget, hid, hoff⟩, seg, List.mem_of_find?_eq_some hfind, hseg.trans hid,
      by simpa using hlt⟩
  · rintro ⟨⟨target, htarget, hid, hoff⟩, seg, hseg, hsegid, hlt⟩
    have hfind : (st.segments.find? fun s => decide (s.id = target.1)) = some seg := by
      have := Support.ListLookup.find?_key Segment.id hwf.ids_nodup hseg
      rwa [hsegid, ← hid] at this
    refine ⟨(target.1, target.2.filter fun off => decide (off < seg.rows.length)), ?_, hid, ?_⟩
    · exact List.mem_filterMap.mpr ⟨target, htarget, by rw [hfind]; rfl⟩
    · exact List.mem_filter.mpr ⟨hoff, by simpa using hlt⟩

/-- The effect of a tombstone `DELETE` that reports `inserted` rows. -/
structure Tombstoned (targets : List (ℤ × List ℕ)) (st st' : State ρ) (inserted : ℕ) : Prop where
  isCompressed_eq : st'.isCompressed = st.isCompressed
  segments_eq : st'.segments = st.segments
  heap_eq : st'.heap = st.heap
  mem_tombstones : ∀ t, t ∈ st'.tombstones ↔
    t ∈ st.tombstones ∨ (Targeted targets t ∧ st.HasRow t)
  card_tombstones : st'.tombstones.card = st.tombstones.card + inserted
  rowCount_eq : ∀ n, st.rowCount = some n → st'.rowCount = some (n - inserted)
  maxSegmentId_eq : st'.maxSegmentId = st.maxSegmentId
  hasLooseRows_eq : st'.hasLooseRows = st.hasLooseRows
  hasTombstones_eq : st'.hasTombstones = (st.hasTombstones || decide (0 < inserted))

theorem insertDmlTombstones_spec {st : State ρ} (hwf : WellFormed st)
    (targets : List (ℤ × List ℕ)) :
    Tombstoned targets st (insertDmlTombstones st (claimTargets st targets)).1
      (insertDmlTombstones st (claimTargets st targets)).2 := by
  have hmem := mem_foldl_insertOffsets (claimTargets st targets) (st.tombstones, 0)
  simp only [targeted_claimTargets hwf] at hmem
  have hcard := card_foldl_insertOffsets (claimTargets st targets) (st.tombstones, 0)
  simp only [Nat.add_zero] at hcard
  unfold insertDmlTombstones
  split
  · rename_i hnoop
    -- no target is left, so nothing is targeted
    have hnone : ∀ t, ¬ (Targeted targets t ∧ st.HasRow t) := by
      intro t ht
      rcases hnoop with hempty | hplain
      · rw [← targeted_claimTargets hwf, List.isEmpty_iff.mp hempty] at ht
        obtain ⟨target, htarget, -⟩ := ht
        cases htarget
      · obtain ⟨-, seg, hseg, -⟩ := ht
        rw [hwf.plain hplain] at hseg
        cases hseg
    exact ⟨rfl, rfl, rfl, fun t => by simp [hnone t], rfl, fun n hn => by simpa using hn, rfl, rfl,
      by simp⟩
  · simp only
    split
    · rename_i hinserted
      exact ⟨rfl, rfl, rfl, hmem, hcard, fun n hn => by simp [bumpPartitionDecompose, hn], rfl, rfl,
        by simp [hinserted]⟩
    · rename_i hinserted
      have hzero : (List.foldl insertOffsets (st.tombstones, 0) (claimTargets st targets)).2 = 0 := by
        omega
      rw [hzero] at hcard
      exact ⟨rfl, rfl, rfl, hmem, hcard, fun n hn => by simpa using hn, rfl, rfl, by simp⟩

theorem Tombstoned.wellFormed {targets : List (ℤ × List ℕ)} {st st' : State ρ} {inserted : ℕ}
    (h : Tombstoned targets st st' inserted) (hwf : WellFormed st) : WellFormed st' where
  ids_nodup := by
    rw [State.segmentIds, h.segments_eq]
    exact hwf.ids_nodup
  tombstoned := by
    intro t ht
    rw [h.segments_eq]
    rcases (h.mem_tombstones t).mp ht with hold | ⟨-, hrow⟩
    · exact hwf.tombstoned t hold
    · exact hrow
  plain := by
    intro hplain
    rw [h.segments_eq]
    exact hwf.plain (h.isCompressed_eq ▸ hplain)

/-! ## Full decompression -/

/-- A full decompression that succeeds did nothing or restored every live row. -/
theorem decompressPartition_cases {l : Layout ρ κ} {st st' : State ρ}
    (h : decompressPartition l st = .ok st') :
    (st.isCompressed = false ∧ st' = st) ∨
      (st.isCompressed = true ∧ ∃ rows,
        (st.segments.flatMap (liveRows st.tombstones)).mapM l.restore = some rows ∧
        st' = { st with
          isCompressed := false
          segments := []
          tombstones := ∅
          heap := st.heap ++ rows.map fun r => ⟨r, false⟩
          rowCount := none
          maxSegmentId := none }) := by
  unfold decompressPartition at h
  split at h
  · rename_i hcompressed
    obtain ⟨rows, hrows, h⟩ := ok_of_bind h
    cases h
    exact .inr ⟨hcompressed, rows, restoreSegmentRows_eq_ok hrows, rfl⟩
  · rename_i hplain
    cases h
    exact .inl ⟨by simpa using hplain, rfl⟩

/-! ## Compaction -/

theorem rewriteTombstoned_cases {l : Layout ρ κ} {shapeMatches : Bool} {st mid : State ρ} (hwf : WellFormed st)
    (hcompressed : st.isCompressed = true) (h : rewriteTombstoned l shapeMatches st = .ok mid) :
    ∃ dec stats,
      decomposeSegmentsForDml l shapeMatches (st.tombstones.image Prod.fst) ∅ st =
        .ok (dec, stats) ∧
      dec.isCompressed = true ∧ dec.tombstones = ∅ ∧ mid = { dec with hasTombstones := false } := by
  unfold rewriteTombstoned at h
  cases hdec : decomposeSegmentsForDml l shapeMatches (st.tombstones.image Prod.fst) ∅ st with
  | error e =>
      rw [hdec] at h
      cases h
  | ok out =>
      obtain ⟨dec, stats⟩ := out
      rw [hdec] at h
      have hdone : dec.isCompressed = true ∧ dec.tombstones = ∅ := by
        rcases decomposeSegmentsForDml_cases hdec with ⟨hnoop, rfl, -⟩ | ⟨-, hdec⟩
        · refine ⟨hcompressed, ?_⟩
          rcases hnoop with ⟨hids, -⟩ | hplain
          · exact Finset.image_eq_empty.mp hids
          · exact hwf.tombstones_eq_empty hplain
        · refine ⟨hdec.isCompressed_eq, Finset.eq_empty_of_forall_notMem ?_⟩
          intro t ht
          obtain ⟨hmem, hremoved⟩ := (hdec.mem_tombstones t).mp ht
          obtain ⟨seg, hseg, hid, -⟩ := hwf.tombstoned t hmem
          have hkept := mem_kept_of_not_removed hseg (hid ▸ hremoved)
          have hnot := (List.mem_filter.mp hkept).2
          rw [decide_eq_true_eq, hid] at hnot
          exact hnot (Finset.mem_image_of_mem Prod.fst hmem)
      refine ⟨dec, stats, rfl, hdone.1, hdone.2, ?_⟩
      have hmid : (if dec.tombstones = ∅ then { dec with hasTombstones := false } else dec) = mid :=
        Except.ok.inj h
      rw [if_pos hdone.2] at hmid
      exact hmid.symm

variable [DecidableEq κ]

/-- The id that compaction starts from. -/
def firstNewId (st : State ρ) : ℤ :=
  wrapI32 (max (maxMetaId st.segments) (st.maxSegmentId.getD 0) + 1)

/-- The loose rows are folded into new segments. -/
def foldedState (l : Layout ρ κ) (st : State ρ) : State ρ :=
  { st with
    segments := st.segments ++ segmentRows l (firstNewId st) st.heapRows
    heap := []
    rowCount := some (st.rowCount.getD 0 + st.heap.length)
    hasLooseRows := false }

/-- A compaction that succeeds rewrote the tombstoned segments and folded the loose
rows, if there were any. -/
theorem compactPartition_cases {l : Layout ρ κ} {shapeMatches : Bool} {st st' : State ρ}
    (h : compactPartition l shapeMatches st = .ok st') :
    (st.isCompressed = false ∧ st' = st) ∨
      (st.isCompressed = true ∧ ∃ mid, rewriteTombstoned l shapeMatches st = .ok mid ∧
        ((mid.heap = [] ∧ st' = { mid with hasLooseRows := false }) ∨
          (mid.heap ≠ [] ∧ (foldedState l mid).segmentIds.Nodup ∧ st' = foldedState l mid))) := by
  unfold compactPartition at h
  split at h
  · rename_i hplain
    cases h
    exact .inl ⟨hplain, rfl⟩
  · rename_i hcompressed
    refine .inr ⟨by simpa using hcompressed, ?_⟩
    cases hmid : rewriteTombstoned l shapeMatches st with
    | error e =>
        rw [hmid] at h
        cases h
    | ok mid =>
        rw [hmid] at h
        refine ⟨mid, rfl, ?_⟩
        simp only [bind, Except.bind] at h
        split at h
        · rename_i hempty
          cases h
          exact .inl ⟨List.isEmpty_iff.mp hempty, rfl⟩
        · rename_i hloose
          refine .inr ⟨by simpa using hloose, ?_⟩
          split at h
          · cases h
          · split at h
            · cases h
            · split at h
              · rename_i hnodup
                cases h
                exact ⟨hnodup, rfl⟩
              · cases h

theorem compactPartition_folds {l : Layout ρ κ} {st mid : State ρ}
    (hcompressed : st.isCompressed = true) (hmid : rewriteTombstoned l true st = .ok mid)
    (hloose : mid.heap ≠ []) (hjson : l.jsonExtract = false)
    (hnodup : (foldedState l mid).segmentIds.Nodup) :
    compactPartition l true st = .ok (foldedState l mid) := by
  rw [compactPartition, if_neg (by simp [hcompressed]), hmid]
  simp only [bind, Except.bind]
  rw [if_neg (by simpa using hloose), if_neg (by simp), if_neg (by simp [hjson])]
  exact if_pos hnodup

/-- New segments leave the tombstones and the old segments alone. -/
theorem wellFormed_folded {l : Layout ρ κ} {st : State ρ} (hwf : WellFormed st)
    (hcompressed : st.isCompressed = true) (hnodup : (foldedState l st).segmentIds.Nodup) :
    WellFormed (foldedState l st) where
  ids_nodup := hnodup
  tombstoned := by
    intro t ht
    obtain ⟨seg, hseg, hrow⟩ := hwf.tombstoned t ht
    exact ⟨seg, List.mem_append_left _ hseg, hrow⟩
  plain := by
    intro hplain
    have : st.isCompressed = false := hplain
    rw [hcompressed] at this
    cases this

theorem wellFormed_compact {l : Layout ρ κ} {shapeMatches : Bool} {st st' : State ρ}
    (hwf : WellFormed st) (h : compactPartition l shapeMatches st = .ok st') : WellFormed st' := by
  rcases compactPartition_cases h with ⟨-, rfl⟩ | ⟨hcompressed, mid, hmid, hfold⟩
  · exact hwf
  · obtain ⟨dec, stats, hdec, hdone, -, rfl⟩ := rewriteTombstoned_cases hwf hcompressed hmid
    have hwfdec := wellFormed_decompose hwf hdec
    have hwfmid : WellFormed { dec with hasTombstones := false } :=
      ⟨hwfdec.ids_nodup, hwfdec.tombstoned, hwfdec.plain⟩
    rcases hfold with ⟨-, rfl⟩ | ⟨-, hnodup, rfl⟩
    · exact ⟨hwfmid.ids_nodup, hwfmid.tombstoned, hwfmid.plain⟩
    · exact wellFormed_folded hwfmid hdone hnodup

/-! ## Runs -/

/-- A compression that succeeds did nothing or wrote the whole heap to segments. -/
theorem compressPartition_cases {l : Layout ρ κ} {st st' : State ρ}
    (h : compressPartition l st = .ok st') :
    ((st.isCompressed = true ∨ st.heap = []) ∧ st' = st) ∨
      (st.isCompressed = false ∧ st.heap ≠ [] ∧
        ((segmentRows l 1 st.heapRows).map Segment.id).Nodup ∧
        st' = { st with
          isCompressed := true
          segments := segmentRows l 1 st.heapRows
          tombstones := ∅
          heap := []
          rowCount := some st.heap.length
          hasLooseRows := false
          hasTombstones := false }) := by
  unfold compressPartition at h
  split at h
  · rename_i hnoop
    cases h
    exact .inl ⟨by simpa using hnoop, rfl⟩
  · rename_i hop
    rw [not_or] at hop
    simp only at h
    split at h
    · rename_i hnodup
      cases h
      exact .inr ⟨by simpa using hop.1, by simpa using hop.2, hnodup, rfl⟩
    · cases h

theorem compressPartition_writes {l : Layout ρ κ} {st : State ρ}
    (hplain : st.isCompressed = false) (hheap : st.heap ≠ [])
    (hnodup : ((segmentRows l 1 st.heapRows).map Segment.id).Nodup) :
    compressPartition l st =
      .ok { st with
        isCompressed := true
        segments := segmentRows l 1 st.heapRows
        tombstones := ∅
        heap := []
        rowCount := some st.heap.length
        hasLooseRows := false
        hasTombstones := false } := by
  rw [compressPartition, if_neg (by simp [hplain, hheap])]
  exact if_pos hnodup

theorem wellFormed_fresh (rows : List ρ) : WellFormed (fresh rows) where
  ids_nodup := List.nodup_nil
  tombstoned := by simp [fresh]
  plain := fun _ => rfl

/-- What it means for an operation to have ended in `st'` and reported rows. -/
def Performed (l : Layout ρ κ) (st : State ρ) : Op ρ → State ρ → ℕ → Prop
  | .compress, st', reported => compressPartition l st = .ok st' ∧ reported = 0
  | .insert rows memoized, st', reported => st' = insertRows st rows memoized ∧ reported = 0
  | .deleteLoose p, st', reported => st' = deleteLoose st p ∧ reported = 0
  | .tombstoneDelete targets, st', reported =>
      st' = (insertDmlTombstones st (claimTargets st targets)).1 ∧
        reported = (insertDmlTombstones st (claimTargets st targets)).2
  | .decompose shapeMatches decomposeIds dropIds, st', reported =>
      ∃ stats, decomposeSegmentsForDml l shapeMatches decomposeIds dropIds st = .ok (st', stats) ∧
        reported = stats.droppedRows
  | .compact shapeMatches, st', reported =>
      compactPartition l shapeMatches st = .ok st' ∧ reported = 0
  | .decompress, st', reported => decompressPartition l st = .ok st' ∧ reported = 0

theorem performed_of_perform {l : Layout ρ κ} {st st' : State ρ} {op : Op ρ} {reported : ℕ}
    (h : perform l st op = .ok (st', reported)) : Performed l st op st' reported := by
  cases op with
  | compress =>
      simp only [perform, bind, Except.bind] at h
      split at h
      · cases h
      · rename_i heq
        cases h
        exact ⟨heq, rfl⟩
  | insert rows memoized =>
      cases h
      exact ⟨rfl, rfl⟩
  | deleteLoose p =>
      cases h
      exact ⟨rfl, rfl⟩
  | tombstoneDelete targets =>
      have hout : insertDmlTombstones st (claimTargets st targets) = (st', reported) :=
        Except.ok.inj h
      exact ⟨by rw [hout], by rw [hout]⟩
  | decompose shapeMatches decomposeIds dropIds =>
      simp only [perform, bind, Except.bind] at h
      split at h
      · cases h
      · rename_i out heq
        cases h
        exact ⟨out.2, heq, rfl⟩
  | compact shapeMatches =>
      simp only [perform, bind, Except.bind] at h
      split at h
      · cases h
      · rename_i heq
        cases h
        exact ⟨heq, rfl⟩
  | decompress =>
      simp only [perform, bind, Except.bind] at h
      split at h
      · cases h
      · rename_i heq
        cases h
        exact ⟨heq, rfl⟩

theorem performed_of_step {l : Layout ρ κ} {st st' : State ρ} {op : Op ρ}
    (h : step l st op = .ok st') : ∃ reported, Performed l st op st' reported := by
  cases hperform : perform l st op with
  | error e => simp [step, hperform, Except.map] at h
  | ok out =>
      have hst : out.1 = st' := by simpa [step, hperform, Except.map] using h
      refine ⟨out.2, performed_of_perform ?_⟩
      rw [hperform, ← hst]

theorem wellFormed_performed {l : Layout ρ κ} {st st' : State ρ} {op : Op ρ} {reported : ℕ}
    (hwf : WellFormed st) (h : Performed l st op st' reported) : WellFormed st' := by
  cases op with
  | compress =>
      rcases compressPartition_cases h.1 with ⟨-, rfl⟩ | ⟨-, -, hnodup, rfl⟩
      · exact hwf
      · exact ⟨hnodup, fun t ht => by simp at ht, fun hplain => by cases hplain⟩
  | insert rows memoized =>
      obtain ⟨rfl, -⟩ := h
      exact ⟨hwf.ids_nodup, hwf.tombstoned, hwf.plain⟩
  | deleteLoose p =>
      obtain ⟨rfl, -⟩ := h
      exact ⟨hwf.ids_nodup, hwf.tombstoned, hwf.plain⟩
  | tombstoneDelete targets =>
      obtain ⟨rfl, -⟩ := h
      exact (insertDmlTombstones_spec hwf targets).wellFormed hwf
  | decompose shapeMatches decomposeIds dropIds =>
      obtain ⟨stats, hdec, -⟩ := h
      exact wellFormed_decompose hwf hdec
  | compact shapeMatches => exact wellFormed_compact hwf h.1
  | decompress =>
      rcases decompressPartition_cases h.1 with ⟨-, rfl⟩ | ⟨-, rows, -, rfl⟩
      · exact hwf
      · exact ⟨List.nodup_nil, fun t ht => by simp at ht, fun _ => rfl⟩

/-- An invariant that every operation keeps holds in every state a run reaches. -/
theorem invariant_reached {I : State ρ → Prop} (l : Layout ρ κ) {rows : List ρ}
    (hfresh : I (fresh rows))
    (hperformed : ∀ st op st' reported, WellFormed st → I st →
      Performed l st op st' reported → I st') (ops : List (Op ρ)) :
    WellFormed (reached l rows ops) ∧ I (reached l rows ops) := by
  refine invariant_run (I := fun st => WellFormed st ∧ I st) ?_ ⟨wellFormed_fresh rows, hfresh⟩
    (along_true (fresh rows) ops)
  rintro st op st' ⟨hwf, hI⟩ - hstep
  obtain ⟨reported, hop⟩ := performed_of_step hstep
  exact ⟨wellFormed_performed hwf hop, hperformed st op st' reported hwf hI hop⟩

theorem wellFormed_reached (l : Layout ρ κ) (rows : List ρ) (ops : List (Op ρ)) :
    WellFormed (reached l rows ops) :=
  (invariant_reached (I := fun _ => True) l trivial (fun _ _ _ _ _ _ _ => trivial) ops).1

end DeltaX.Partition
