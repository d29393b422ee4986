import DeltaX.Partition.State
/-!
# What the cursor loop writes

Whatever the layout, the segments hold exactly the rows of the cursor, and their
ids are consecutive `i32` numbers.
-/

namespace DeltaX.Partition

open Support.Wrapping

variable {ρ κ : Type*}

/-! ## Consecutive ids -/

/-- `n` ids from `next` on. -/
def idsFrom : ℤ → ℕ → List ℤ
  | _, 0 => []
  | next, n + 1 => next :: idsFrom (wrapI32 (next + 1)) n

/-- The id after `n` ids from `next` on. -/
def advance : ℤ → ℕ → ℤ
  | next, 0 => next
  | next, n + 1 => advance (wrapI32 (next + 1)) n

theorem idsFrom_add (next : ℤ) (m n : ℕ) :
    idsFrom next (m + n) = idsFrom next m ++ idsFrom (advance next m) n := by
  induction m generalizing next with
  | zero => simp [idsFrom, advance]
  | succ m ih => rw [Nat.succ_add, idsFrom, ih, idsFrom, advance, List.cons_append]

theorem advance_add (next : ℤ) (m n : ℕ) :
    advance next (m + n) = advance (advance next m) n := by
  induction m generalizing next with
  | zero => rw [Nat.zero_add, advance]
  | succ m ih => rw [Nat.succ_add, advance, ih, advance]

/-! ## Segments with consecutive ids -/

/-- `segments` hold `rows`, under the ids from `next` on, none of them empty and none
with more than `size` rows. -/
structure Writes (size : ℕ) (next : ℤ) (rows : List ρ) (segments : List (Segment ρ)) : Prop where
  rows_perm : (segments.flatMap Segment.rows).Perm rows
  ids_eq : segments.map Segment.id = idsFrom next segments.length
  sizes : ∀ seg ∈ segments, 0 < seg.rows.length ∧ seg.rows.length ≤ size

theorem Writes.nil (size : ℕ) (next : ℤ) : Writes size next ([] : List ρ) [] :=
  ⟨.refl _, rfl, fun _ hseg => by cases hseg⟩

theorem Writes.append {size : ℕ} {next : ℤ} {rows rows' : List ρ}
    {segments segments' : List (Segment ρ)} (h : Writes size next rows segments)
    (h' : Writes size (advance next segments.length) rows' segments') :
    Writes size next (rows ++ rows') (segments ++ segments') where
  rows_perm := by
    rw [List.flatMap_append]
    exact h.rows_perm.append h'.rows_perm
  ids_eq := by rw [List.map_append, h.ids_eq, h'.ids_eq, List.length_append, idsFrom_add]
  sizes := by
    intro seg hseg
    rcases List.mem_append.mp hseg with hseg | hseg
    · exact h.sizes seg hseg
    · exact h'.sizes seg hseg

theorem Writes.perm {size : ℕ} {next : ℤ} {rows rows' : List ρ} {segments : List (Segment ρ)}
    (h : Writes size next rows segments) (hperm : rows.Perm rows') :
    Writes size next rows' segments :=
  ⟨h.rows_perm.trans hperm, h.ids_eq, h.sizes⟩

theorem flushWithSplitting_writes {size : ℕ} (hsize : 0 < size) (fuel : ℕ) (next : ℤ)
    {rows : List ρ} (hfuel : rows.length ≤ fuel) :
    Writes size next rows (flushWithSplitting size fuel next rows).1 ∧
      (flushWithSplitting size fuel next rows).2 =
        advance next (flushWithSplitting size fuel next rows).1.length := by
  induction fuel generalizing next rows with
  | zero =>
      obtain rfl : rows = [] := List.length_eq_zero_iff.mp (by omega)
      exact ⟨.nil size next, rfl⟩
  | succ fuel ih =>
      cases rows with
      | nil => exact ⟨.nil size next, rfl⟩
      | cons r rows =>
          have hrest : ((r :: rows).drop size).length ≤ fuel := by
            simp only [List.length_drop, List.length_cons] at hfuel ⊢
            omega
          obtain ⟨hwrites, hnext⟩ := ih (wrapI32 (next + 1)) hrest
          constructor
          · have hhead : Writes size next ((r :: rows).take size)
                [⟨next, (r :: rows).take size⟩] := by
              refine ⟨by simp, rfl, ?_⟩
              intro seg hseg
              rw [List.mem_singleton.mp hseg, List.length_take, List.length_cons]
              omega
            have hall := hhead.append hwrites
            rwa [List.take_append_drop] at hall
          · exact hnext

/-! ## The cursor loop -/

/-- What holds of the accumulators after the rows `seen`. -/
structure Flush.Holds (size : ℕ) (next : ℤ) (seen : List ρ) (f : Flush ρ κ) : Prop where
  written : Writes size next (f.segments.flatMap Segment.rows) f.segments
  rows_perm : (f.segments.flatMap Segment.rows ++ f.rows).Perm seen
  next_eq : f.nextSegmentId = advance next f.segments.length

theorem Flush.Holds.flush {next : ℤ} {seen : List ρ} {f : Flush ρ κ} (l : Layout ρ κ)
    (h : f.Holds l.segmentSize next seen) :
    (f.flush l).Holds l.segmentSize next seen ∧ (f.flush l).rows = [] := by
  refine ⟨?_, rfl⟩
  have hsorted : (if l.hasSegmentBy then f.rows else f.rows.mergeSort l.orderLe).Perm f.rows := by
    split
    · exact .refl _
    · exact List.mergeSort_perm _ _
  obtain ⟨hwrites, hnext⟩ := flushWithSplitting_writes l.segmentSize_pos
    (if l.hasSegmentBy then f.rows else f.rows.mergeSort l.orderLe).length f.nextSegmentId le_rfl
  rw [h.next_eq] at hwrites hnext
  have hall := h.written.append (hwrites.perm hsorted)
  refine ⟨?_, ?_, ?_⟩
  · simp only [Flush.flush, h.next_eq]
    exact ⟨.refl _, hall.ids_eq, hall.sizes⟩
  · simp only [Flush.flush, List.append_nil, h.next_eq]
    exact hall.rows_perm.trans h.rows_perm
  · simp only [Flush.flush, h.next_eq, List.length_append, advance_add]
    exact hnext

variable [DecidableEq κ]

theorem Flush.Holds.boundary {next : ℤ} {seen : List ρ} {f : Flush ρ κ} (l : Layout ρ κ)
    (h : f.Holds l.segmentSize next seen) (r : ρ) :
    (f.boundary l r).Holds l.segmentSize next seen := by
  unfold Flush.boundary
  split
  · split
    · exact ⟨h.written, h.rows_perm, h.next_eq⟩
    · split
      · exact h
      · have hflushed :
            (if f.rows.isEmpty then f else f.flush l).Holds l.segmentSize next seen := by
          split
          · exact h
          · exact (h.flush l).1
        exact ⟨hflushed.written, hflushed.rows_perm, hflushed.next_eq⟩
  · exact h

theorem Flush.Holds.append {next : ℤ} {seen : List ρ} {f : Flush ρ κ} (l : Layout ρ κ)
    (h : f.Holds l.segmentSize next seen) (r : ρ) :
    (f.append l r).Holds l.segmentSize next (seen ++ [r]) := by
  have hb := h.boundary l r
  have hpushed : Flush.Holds l.segmentSize next (seen ++ [r])
      { f.boundary l r with rows := (f.boundary l r).rows ++ [r] } := by
    refine ⟨hb.written, ?_, hb.next_eq⟩
    rw [← List.append_assoc]
    exact hb.rows_perm.append_right [r]
  unfold Flush.append
  simp only
  split
  · exact (hpushed.flush l).1
  · exact hpushed

theorem Flush.Holds.foldl {next : ℤ} {seen : List ρ} {f : Flush ρ κ} (l : Layout ρ κ)
    (h : f.Holds l.segmentSize next seen) (cursor : List ρ) :
    (cursor.foldl (Flush.append l) f).Holds l.segmentSize next (seen ++ cursor) := by
  induction cursor generalizing f seen with
  | nil => simpa using h
  | cons r cursor ih =>
      have hrest := ih (h.append l r)
      rwa [List.append_assoc, List.singleton_append] at hrest

theorem segmentRows_writes (l : Layout ρ κ) (next : ℤ) (rows : List ρ) :
    Writes l.segmentSize next rows (segmentRows l next rows) := by
  have hcursor : (if l.hasSegmentBy then rows.mergeSort l.cursorLe else rows).Perm rows := by
    split
    · exact List.mergeSort_perm _ _
    · exact .refl _
  have hstart : Flush.Holds l.segmentSize next ([] : List ρ) (⟨[], none, next, []⟩ : Flush ρ κ) :=
    ⟨.nil _ _, .refl _, rfl⟩
  have hloop := hstart.foldl l (if l.hasSegmentBy then rows.mergeSort l.cursorLe else rows)
  rw [List.nil_append] at hloop
  unfold segmentRows
  generalize (if l.hasSegmentBy then rows.mergeSort l.cursorLe else rows) = cursor
    at hcursor hloop ⊢
  simp only
  split
  · rename_i hempty
    have hperm := hloop.rows_perm
    rw [List.isEmpty_iff.mp hempty, List.append_nil] at hperm
    exact hloop.written.perm (hperm.trans hcursor)
  · obtain ⟨hflushed, hrows⟩ := hloop.flush l
    have hperm := hflushed.rows_perm
    rw [hrows, List.append_nil] at hperm
    exact hflushed.written.perm (hperm.trans hcursor)

end DeltaX.Partition
