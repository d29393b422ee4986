import DeltaX.Partition.Content
import Mathlib.Algebra.BigOperators.Group.Finset.Basic
/-!
# Catalog bookkeeping

`row_count` is adjusted by each operation on its own, and still counts the live
rows of the segments in every state a run reaches.  The flags are set whenever
what they announce is there.
-/

namespace DeltaX.Partition

open Support.ListLookup

variable {ρ κ : Type*}

/-! ## Counting live rows -/

def liveCount (st : State ρ) : ℕ := (st.segments.flatMap (liveRows st.tombstones)).length

/-- The tombstones of a segment are the offsets they name. -/
theorem tombCount_eq {tombstones : Finset (ℤ × ℕ)} {seg : Segment ρ}
    (hrows : ∀ t ∈ tombstones, t.1 = seg.id → t.2 < seg.rows.length) :
    tombCount tombstones seg.id =
      ((List.range seg.rows.length).filter fun off => decide ((seg.id, off) ∈ tombstones)).length := by
  have himage : tombstones.filter (fun t => t.1 = seg.id) =
      (((List.range seg.rows.length).filter fun off =>
        decide ((seg.id, off) ∈ tombstones)).map fun off => (seg.id, off)).toFinset := by
    ext t
    simp only [Finset.mem_filter, List.mem_toFinset, List.mem_map, List.mem_filter, List.mem_range,
      decide_eq_true_eq]
    constructor
    · rintro ⟨ht, hid⟩
      exact ⟨t.2, ⟨hrows t ht hid, by rwa [← hid]⟩, by rw [← hid]⟩
    · rintro ⟨off, ⟨-, hmem⟩, rfl⟩
      exact ⟨hmem, rfl⟩
  have hnodup : (((List.range seg.rows.length).filter fun off =>
      decide ((seg.id, off) ∈ tombstones)).map fun off => (seg.id, off)).Nodup :=
    (List.nodup_range.filter _).map fun _ _ heq => (Prod.mk.inj heq).2
  rw [tombCount, himage, List.toFinset_card_of_nodup hnodup, List.length_map]

theorem length_liveRows {tombstones : Finset (ℤ × ℕ)} {seg : Segment ρ}
    (hrows : ∀ t ∈ tombstones, t.1 = seg.id → t.2 < seg.rows.length) :
    (liveRows tombstones seg).length + tombCount tombstones seg.id = seg.rows.length := by
  have hoffsets : (liveRows tombstones seg).length =
      ((List.range seg.rows.length).filter fun off => decide ((seg.id, off) ∉ tombstones)).length := by
    rw [List.range_eq_range', ← List.zipIdx_map_snd 0 seg.rows, List.filter_map, List.length_map,
      liveRows, List.length_map]
    rfl
  have hperm := (List.filter_append_perm (fun off => decide ((seg.id, off) ∈ tombstones))
    (List.range seg.rows.length)).length_eq
  simp only [List.length_append, List.length_range, ← decide_not] at hperm
  rw [hoffsets, tombCount_eq hrows]
  omega

theorem WellFormed.offset_lt {st : State ρ} (hwf : WellFormed st) {seg : Segment ρ}
    (hseg : seg ∈ st.segments) : ∀ t ∈ st.tombstones, t.1 = seg.id → t.2 < seg.rows.length := by
  intro t ht hid
  obtain ⟨seg', hseg', hid', hlt⟩ := hwf.tombstoned t ht
  rwa [hwf.segment_eq hseg' hseg (hid'.trans hid)] at hlt

/-- Every tombstone belongs to one segment. -/
theorem sum_tombCount {st : State ρ} (hwf : WellFormed st) :
    (st.segments.map fun seg => tombCount st.tombstones seg.id).sum = st.tombstones.card := by
  have hmaps : Set.MapsTo Prod.fst (st.tombstones : Set (ℤ × ℕ)) (st.segmentIds.toFinset : Set ℤ) := by
    intro t ht
    obtain ⟨seg, hseg, hid, -⟩ := hwf.tombstoned t ht
    rw [Finset.mem_coe, List.mem_toFinset]
    exact List.mem_map.mpr ⟨seg, hseg, hid⟩
  rw [Finset.card_eq_sum_card_fiberwise hmaps, List.sum_toFinset _ hwf.ids_nodup, State.segmentIds,
    List.map_map]
  rfl

theorem liveCount_add_card {st : State ρ} (hwf : WellFormed st) :
    liveCount st + st.tombstones.card = (st.segments.map fun seg => seg.rows.length).sum := by
  rw [liveCount, List.length_flatMap, ← sum_tombCount hwf, ← List.sum_map_add]
  congr 1
  exact List.map_congr_left fun seg hseg => length_liveRows (hwf.offset_lt hseg)

theorem card_content (l : Layout ρ κ) (st : State ρ) :
    (content l st).card = liveCount st + st.heap.length := by
  simp [content, liveCount, State.heapRows]

theorem droppedRows_eq {st : State ρ} (hwf : WellFormed st) (dropIds : Finset ℤ) :
    droppedRows dropIds st =
      ((droppedSegments dropIds st).flatMap (liveRows st.tombstones)).length := by
  rw [droppedRows, List.length_flatMap]
  congr 1
  apply List.map_congr_left
  intro seg hseg
  have hlength := length_liveRows (hwf.offset_lt (List.mem_filter.mp hseg).1)
  omega

/-- Restoring keeps the number of rows, so only the dropped ones are missing. -/
theorem card_decomposed {l : Layout ρ κ} {decomposeIds dropIds : Finset ℤ} {st st' : State ρ}
    {stats : DmlDecomposeStats} (h : Decomposed decomposeIds dropIds st l st' stats) :
    (content l st').card + ((droppedSegments dropIds st).flatMap (liveRows st.tombstones)).length =
      (content l st).card := by
  have hcard := congrArg Multiset.card (content_decomposed h)
  simp only [Multiset.card_add, Multiset.coe_card, List.length_map,
    length_of_mapM h.restores] at hcard
  omega

theorem reported_tombstoned (l : Layout ρ κ) {targets : List (ℤ × List ℕ)} {st st' : State ρ} {inserted : ℕ}
    (hwf : WellFormed st) (h : Tombstoned targets st st' inserted) :
    (content l st').card + inserted = (content l st).card := by
  have hbefore := liveCount_add_card hwf
  have hafter := liveCount_add_card (h.wellFormed hwf)
  rw [h.segments_eq, h.card_tombstones] at hafter
  rw [card_content, card_content, h.heap_eq]
  omega

theorem reported_decompose {l : Layout ρ κ} {shapeMatches : Bool}
    {decomposeIds dropIds : Finset ℤ} {st st' : State ρ} {stats : DmlDecomposeStats} (hwf : WellFormed st)
    (h : decomposeSegmentsForDml l shapeMatches decomposeIds dropIds st = .ok (st', stats)) :
    (content l st').card + stats.droppedRows = (content l st).card := by
  rcases decomposeSegmentsForDml_cases h with ⟨-, rfl, rfl⟩ | ⟨-, hdec⟩
  · rfl
  · rw [hdec.stats_droppedRows, droppedRows_eq hwf]
    exact card_decomposed hdec

/-! ## The bookkeeping -/

structure Exact (st : State ρ) : Prop where
  rowCount_eq : st.isCompressed = true → st.rowCount = some (liveCount st)
  hasTombstones_of : st.tombstones ≠ ∅ → st.hasTombstones = true
  hasLooseRows_of : ∀ h ∈ st.heap, h.restored = true → st.hasLooseRows = true

theorem exact_fresh (rows : List ρ) : Exact (fresh rows) where
  rowCount_eq := by
    intro h
    cases h
  hasTombstones_of := fun h => absurd rfl h
  hasLooseRows_of := by
    intro h hmem hrestored
    obtain ⟨r, -, rfl⟩ := List.mem_map.mp hmem
    cases hrestored

theorem exact_tombstoned {targets : List (ℤ × List ℕ)} {st st' : State ρ} {inserted : ℕ}
    (hwf : WellFormed st) (hexact : Exact st) (h : Tombstoned targets st st' inserted) :
    Exact st' where
  rowCount_eq := by
    intro hcompressed
    rw [h.isCompressed_eq] at hcompressed
    rw [h.rowCount_eq _ (hexact.rowCount_eq hcompressed)]
    have hbefore := liveCount_add_card hwf
    have hafter := liveCount_add_card (h.wellFormed hwf)
    rw [h.segments_eq, h.card_tombstones] at hafter
    congr 1
    omega
  hasTombstones_of := by
    intro hsome
    rw [h.hasTombstones_eq]
    by_cases hinserted : 0 < inserted
    · simp [hinserted]
    · have hsame : st.tombstones ≠ ∅ := by
        rw [Ne, ← Finset.card_eq_zero] at hsome ⊢
        have := h.card_tombstones
        omega
      simp [hexact.hasTombstones_of hsame]
  hasLooseRows_of := by
    rw [h.heap_eq, h.hasLooseRows_eq]
    exact hexact.hasLooseRows_of

theorem exact_decomposed {l : Layout ρ κ} {decomposeIds dropIds : Finset ℤ} {st st' : State ρ}
    {stats : DmlDecomposeStats} (hwf : WellFormed st) (hexact : Exact st)
    (hcompressed : st.isCompressed = true) (h : Decomposed decomposeIds dropIds st l st' stats) :
    Exact st' where
  rowCount_eq := by
    intro _
    rw [h.rowCount_eq _ (hexact.rowCount_eq hcompressed), droppedRows_eq hwf]
    have hcard := card_decomposed h
    rw [card_content, card_content, h.heap_eq, List.length_append, List.length_map,
      length_of_mapM h.restores] at hcard
    congr 1
    omega
  hasTombstones_of := by
    intro hsome
    rw [h.hasTombstones_eq]
    obtain ⟨t, ht⟩ := Finset.nonempty_iff_ne_empty.mpr hsome
    apply hexact.hasTombstones_of
    exact Finset.ne_empty_of_mem ((h.mem_tombstones t).mp ht).1
  hasLooseRows_of := by
    intro row hmem hrestored
    rw [h.hasLooseRows_eq]
    rw [h.heap_eq] at hmem
    rcases List.mem_append.mp hmem with hold | hnew
    · simp [hexact.hasLooseRows_of row hold hrestored]
    · have hpos := List.length_pos_of_mem hnew
      rw [List.length_map, length_of_mapM h.restores] at hpos
      simp [hpos]

theorem exact_decompose {l : Layout ρ κ} {shapeMatches : Bool} {decomposeIds dropIds : Finset ℤ}
    {st st' : State ρ} {stats : DmlDecomposeStats} (hwf : WellFormed st) (hexact : Exact st)
    (h : decomposeSegmentsForDml l shapeMatches decomposeIds dropIds st = .ok (st', stats)) :
    Exact st' := by
  rcases decomposeSegmentsForDml_cases h with ⟨-, rfl, -⟩ | ⟨hcompressed, hdec⟩
  · exact hexact
  · exact exact_decomposed hwf hexact hcompressed hdec

variable [DecidableEq κ]

theorem exact_folded (l : Layout ρ κ) {st : State ρ} (hexact : Exact st)
    (hcompressed : st.isCompressed = true) (hnone : st.tombstones = ∅) :
    Exact (foldedState l st) where
  rowCount_eq := by
    intro _
    have hwrites := (segmentRows_writes l (firstNewId st) st.heapRows).rows_perm.length_eq
    have hrows : st.heapRows.length = st.heap.length := List.length_map _
    have hlive : liveCount (foldedState l st) = liveCount st + st.heap.length := by
      simp only [liveCount, foldedState, hnone, liveRows_none, List.flatMap_append,
        List.length_append, hwrites, hrows]
    rw [hlive]
    simp [foldedState, hexact.rowCount_eq hcompressed]
  hasTombstones_of := hexact.hasTombstones_of
  hasLooseRows_of := by
    intro row hmem
    cases hmem

theorem exact_compact {l : Layout ρ κ} {shapeMatches : Bool} {st st' : State ρ}
    (hwf : WellFormed st) (hexact : Exact st)
    (h : compactPartition l shapeMatches st = .ok st') : Exact st' := by
  rcases compactPartition_cases h with ⟨-, rfl⟩ | ⟨hcompressed, mid, hmid, hfold⟩
  · exact hexact
  · obtain ⟨dec, stats, hdec, hdone, hnone, rfl⟩ := rewriteTombstoned_cases hwf hcompressed hmid
    have hexactdec := exact_decompose hwf hexact hdec
    have hexactmid : Exact { dec with hasTombstones := false } :=
      ⟨hexactdec.rowCount_eq, fun hsome => absurd hnone hsome, hexactdec.hasLooseRows_of⟩
    rcases hfold with ⟨hempty, rfl⟩ | ⟨-, -, rfl⟩
    · refine ⟨hexactmid.rowCount_eq, hexactmid.hasTombstones_of, ?_⟩
      intro row hmem
      have hheap : dec.heap = [] := hempty
      rw [hheap] at hmem
      cases hmem
    · exact exact_folded l hexactmid hdone hnone

theorem exact_compress {l : Layout ρ κ} {st st' : State ρ}
    (hexact : Exact st) (h : compressPartition l st = .ok st') : Exact st' := by
  rcases compressPartition_cases h with ⟨-, rfl⟩ | ⟨-, -, -, rfl⟩
  · exact hexact
  · refine ⟨?_, fun hsome => absurd rfl hsome, fun row hmem => by cases hmem⟩
    intro _
    have hwrites := (segmentRows_writes l 1 st.heapRows).rows_perm.length_eq
    have hrows : st.heapRows.length = st.heap.length := List.length_map _
    simp only [liveCount, liveRows_none, hwrites, hrows]

theorem exact_performed {l : Layout ρ κ} {st st' : State ρ} {op : Op ρ} {reported : ℕ}
    (hwf : WellFormed st) (hexact : Exact st) (h : Performed l st op st' reported) :
    Exact st' := by
  cases op with
  | compress => exact exact_compress hexact h.1
  | insert rows memoized =>
      obtain ⟨rfl, -⟩ := h
      refine ⟨hexact.rowCount_eq, hexact.hasTombstones_of, ?_⟩
      intro row hmem hrestored
      rcases List.mem_append.mp hmem with hold | hnew
      · simp [insertRows, hexact.hasLooseRows_of row hold hrestored]
      · obtain ⟨r, -, rfl⟩ := List.mem_map.mp hnew
        cases hrestored
  | deleteLoose p =>
      obtain ⟨rfl, -⟩ := h
      refine ⟨hexact.rowCount_eq, hexact.hasTombstones_of, ?_⟩
      intro row hmem
      exact hexact.hasLooseRows_of row (List.mem_filter.mp hmem).1
  | tombstoneDelete targets =>
      obtain ⟨rfl, -⟩ := h
      exact exact_tombstoned hwf hexact (insertDmlTombstones_spec hwf targets)
  | decompose shapeMatches decomposeIds dropIds =>
      obtain ⟨stats, hdec, -⟩ := h
      exact exact_decompose hwf hexact hdec
  | compact shapeMatches => exact exact_compact hwf hexact h.1
  | decompress =>
      rcases decompressPartition_cases h.1 with ⟨-, rfl⟩ | ⟨-, rows, -, rfl⟩
      · exact hexact
      · refine ⟨fun hcompressed => (by cases hcompressed), fun hsome => absurd rfl hsome, ?_⟩
        intro row hmem hrestored
        rcases List.mem_append.mp hmem with hold | hnew
        · exact hexact.hasLooseRows_of row hold hrestored
        · obtain ⟨r, -, rfl⟩ := List.mem_map.mp hnew
          cases hrestored

/-! ## Every state of a run -/

/-- The catalog says what is stored, and a compressed `DELETE` reports what it
removes. -/
structure Bookkeeping (l : Layout ρ κ) (st : State ρ) : Prop where
  rowCount_eq : st.isCompressed = true →
    st.rowCount = some ((st.segments.map fun seg => seg.rows.length).sum - st.tombstones.card)
  rowCount_live : st.isCompressed = true → st.rowCount = some (liveCount st)
  hasTombstones_of : st.tombstones ≠ ∅ → st.hasTombstones = true
  hasLooseRows_of : ∀ h ∈ st.heap, h.restored = true → st.hasLooseRows = true
  tombstoned_rows : ∀ targets st' reported,
    perform l st (.tombstoneDelete targets) = .ok (st', reported) →
      (content l st').card + reported = (content l st).card
  dropped_rows : ∀ shapeMatches decomposeIds dropIds st' reported,
    perform l st (.decompose shapeMatches decomposeIds dropIds) = .ok (st', reported) →
      (content l st').card + reported = (content l st).card

/-- Bookkeeping is exact in every state that a run reaches. -/
theorem bookkeeping_reached (l : Layout ρ κ) (rows : List ρ) (ops : List (Op ρ)) :
    Bookkeeping l (reached l rows ops) := by
  obtain ⟨hwf, hexact⟩ := invariant_reached (I := Exact) l (exact_fresh rows)
    (fun st op st' reported hwf hexact hop => exact_performed hwf hexact hop) ops
  refine ⟨?_, hexact.rowCount_eq, hexact.hasTombstones_of, hexact.hasLooseRows_of, ?_, ?_⟩
  · intro hcompressed
    rw [hexact.rowCount_eq hcompressed, ← liveCount_add_card hwf, Nat.add_sub_cancel]
  · intro targets st' reported h
    obtain ⟨rfl, rfl⟩ := performed_of_perform h
    exact reported_tombstoned l hwf (insertDmlTombstones_spec hwf targets)
  · intro shapeMatches decomposeIds dropIds st' reported h
    obtain ⟨stats, hdec, rfl⟩ := performed_of_perform h
    exact reported_decompose hwf hdec

end DeltaX.Partition
