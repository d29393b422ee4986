import DeltaX.Partition.Flush
import DeltaX.Partition.Streaming
/-!
# Columns that hold rows

The typed columns hold the collected rows, whatever is done to all columns alike:
appending, cutting at a row range and sorting.  A segment that is written from
them stores their rows.
-/

namespace DeltaX.Partition.Streaming

open DeltaX.Column Support.Wrapping

/-! ## Columns that hold rows -/

def HoldsColumn (kindOf : ColumnMeta → ColumnKind) (c : ColumnMeta) (typedCol : TypedColumn)
    (entries : List (Option Stored)) : Prop :=
  if c.isSegmentBy then typedCol.cells = []
  else typedCol.hasKind (kindOf c) = true ∧ typedCol.cells = entries

def firstEntry (cells : List (Option Value)) : Option Stored :=
  cells.head?.join.map Value.store

def Collects (kindOf : ColumnMeta → ColumnKind) :
    List ColumnMeta → List TypedColumn → List (List (Option Value)) → Prop
  | [], [], _ => True
  | c :: columns, typedCol :: typedCols, rows =>
      HoldsColumn kindOf c typedCol (rows.map firstEntry) ∧
        Collects kindOf columns typedCols (rows.map List.tail)
  | _, _, _ => False

variable {kindOf : ColumnMeta → ColumnKind} {columns : List ColumnMeta}
  {typedCols : List TypedColumn} {rows : List (List (Option Value))}

theorem collects_new (kindOf : ColumnMeta → ColumnKind) (columns : List ColumnMeta) :
    Collects kindOf columns (columns.map fun c => .new (kindOf c)) [] := by
  induction columns with
  | nil => trivial
  | cons c columns ih =>
      refine ⟨?_, ih⟩
      unfold HoldsColumn
      split
      · exact TypedColumn.cells_new _
      · exact ⟨TypedColumn.hasKind_new _, TypedColumn.cells_new _⟩

theorem Collects.append {cells : List (Option Value)}
    (htyped : List.Forall₂ (fun c cell => ∀ v ∈ cell, v.kind = kindOf c) columns cells)
    (h : Collects kindOf columns typedCols rows) :
    ∃ typedCols', appendRowToColumns kindOf columns cells typedCols = some typedCols' ∧
      Collects kindOf columns typedCols' (rows ++ [cells]) := by
  induction htyped generalizing typedCols rows with
  | nil =>
      cases typedCols with
      | nil => exact ⟨[], rfl, trivial⟩
      | cons => exact absurd h id
  | @cons c cell columns cells hcell _ ih =>
      cases typedCols with
      | nil => exact absurd h id
      | cons typedCol typedCols =>
          obtain ⟨hhead, htail⟩ := h
          obtain ⟨rest, hrest, hcollects⟩ := ih htail
          have htails : rows.map List.tail ++ [cells] =
              (rows ++ [cell :: cells]).map List.tail := by simp
          rw [htails] at hcollects
          rw [appendRowToColumns, hrest]
          unfold HoldsColumn at hhead
          by_cases hseg : c.isSegmentBy = true
          · rw [if_pos hseg] at hhead
            refine ⟨typedCol :: rest, by simp [hseg], ?_, hcollects⟩
            rw [HoldsColumn, if_pos hseg]
            exact hhead
          · rw [if_neg hseg] at hhead
            obtain ⟨hkind, hcells⟩ := hhead
            refine ⟨typedCol.push (cell.map Value.store) :: rest, by simp [hseg, hkind], ?_,
              hcollects⟩
            rw [HoldsColumn, if_neg hseg, TypedColumn.hasKind_push,
              TypedColumn.cells_push hkind hcell, hcells]
            exact ⟨hkind, by simp [firstEntry]⟩

/-- One operation on all columns, that takes the same part of each. -/
theorem Collects.mapM {f : TypedColumn → Option TypedColumn}
    (part : ∀ {α : Type}, List α → List α) (h : Collects kindOf columns typedCols rows)
    (hpart : ∀ {α β : Type} (g : α → β) (xs : List α), xs.length = rows.length →
      part (xs.map g) = (part xs).map g)
    (hf : ∀ c ∈ columns, ∀ typedCol entries, entries.length = rows.length →
      HoldsColumn kindOf c typedCol entries →
      ∃ typedCol', f typedCol = some typedCol' ∧ HoldsColumn kindOf c typedCol' (part entries)) :
    ∃ typedCols', typedCols.mapM f = some typedCols' ∧
      Collects kindOf columns typedCols' (part rows) := by
  induction columns generalizing typedCols rows with
  | nil =>
      cases typedCols with
      | nil => exact ⟨[], rfl, trivial⟩
      | cons => exact absurd h id
  | cons c columns ih =>
      cases typedCols with
      | nil => exact absurd h id
      | cons typedCol typedCols =>
          obtain ⟨hhead, htail⟩ := h
          obtain ⟨typedCol', hfirst, hholds⟩ := hf c (by simp) _ _ (by simp) hhead
          obtain ⟨rest, hrest, hcollects⟩ := ih htail
            (fun g xs hxs => hpart g xs (by simpa using hxs))
            (fun c hc t es hes => hf c (by simp [hc]) t es (by simpa using hes))
          refine ⟨typedCol' :: rest, by simp [hfirst, hrest], ?_, ?_⟩
          · rwa [hpart _ _ rfl] at hholds
          · rwa [hpart _ _ rfl] at hcollects

/-- The columns of a row range hold the rows of the range. -/
theorem Collects.slice {start stop : ℕ} (hle : start ≤ stop) (hstop : stop ≤ rows.length)
    (h : Collects kindOf columns typedCols rows) :
    ∃ typedCols', typedCols.mapM (TypedColumn.slice start stop) = some typedCols' ∧
      Collects kindOf columns typedCols' ((rows.take stop).drop start) := by
  apply h.mapM (fun xs => (xs.take stop).drop start)
  · intro α β g xs _
    rw [← List.map_take, ← List.map_drop]
  · intro c _ typedCol entries hlength hholds
    unfold HoldsColumn at hholds ⊢
    by_cases hseg : c.isSegmentBy = true
    · rw [if_pos hseg] at hholds
      simpa only [if_pos hseg] using TypedColumn.slice_of_empty start stop hholds
    · rw [if_neg hseg] at hholds
      obtain ⟨hkind, hcells⟩ := hholds
      obtain ⟨typedCol', hslice, hcells', hkind'⟩ :=
        TypedColumn.slice_spec typedCol hle (by rw [hcells, hlength]; exact hstop)
      refine ⟨typedCol', hslice, ?_⟩
      rw [if_neg hseg, hkind', hcells', hcells]
      exact ⟨hkind, rfl⟩

/-- Permuted columns hold the permuted rows; there must be no segment-by column, whose
empty vector has nothing to permute. -/
theorem Collects.applyPermutation (hseg : ∀ c ∈ columns, c.isSegmentBy = false)
    {perm : List ℕ} (hperm : ∀ i ∈ perm, i < rows.length)
    (h : Collects kindOf columns typedCols rows) :
    ∃ typedCols', typedCols.mapM (TypedColumn.applyPermutation perm) = some typedCols' ∧
      Collects kindOf columns typedCols' (perm.filterMap fun i => rows[i]?) := by
  apply h.mapM (fun xs => perm.filterMap fun i => xs[i]?)
  · intro α β g xs _
    simp only [List.getElem?_map, List.map_filterMap]
  · intro c hc typedCol entries hlength hholds
    unfold HoldsColumn at hholds ⊢
    rw [if_neg (by simp [hseg c hc])] at hholds
    obtain ⟨hkind, hcells⟩ := hholds
    obtain ⟨typedCol', happly, hcells', hkind'⟩ :=
      TypedColumn.applyPermutation_spec typedCol (by rw [hcells, hlength]; exact hperm)
    refine ⟨typedCol', happly, ?_⟩
    rw [if_neg (by simp [hseg c hc]), hkind', hcells', hcells]
    exact ⟨hkind, rfl⟩

/-- The entry of a row in a column that is not a segment-by column. -/
theorem Collects.cellAt_eq (h : Collects kindOf columns typedCols rows) {i row : ℕ}
    {c : ColumnMeta} (hc : columns[i]? = some c) (hseg : c.isSegmentBy = false) :
    cellAt typedCols i row = (rows[row]?.bind fun r => r[i]?.join.map Value.store) := by
  induction columns generalizing typedCols rows i with
  | nil => simp at hc
  | cons c' columns ih =>
      cases typedCols with
      | nil => exact absurd h id
      | cons typedCol typedCols =>
          obtain ⟨hhead, htail⟩ := h
          cases i with
          | zero =>
              obtain rfl : c' = c := by simpa using hc
              rw [HoldsColumn, if_neg (by simp [hseg])] at hhead
              simp only [cellAt, List.getElem?_cons_zero, Option.bind_some, hhead.2,
                List.getElem?_map]
              cases rows[row]? with
              | none => rfl
              | some r => simp [firstEntry, List.head?_eq_getElem?]
          | succ i =>
              have hrest := ih htail (List.getElem?_cons_succ ▸ hc)
              simp only [cellAt, List.getElem?_cons_succ, List.getElem?_map] at hrest ⊢
              rw [hrest]
              cases rows[row]? with
              | none => rfl
              | some r => cases r <;> simp

/-- The blobs hold one entry for each row. -/
theorem Collects.length_cells (h : Collects kindOf columns typedCols rows) :
    ∀ typedCol ∈ blobColumns columns typedCols, typedCol.cells.length = rows.length := by
  induction columns generalizing typedCols rows with
  | nil => simp [blobColumns]
  | cons c columns ih =>
      cases typedCols with
      | nil => exact absurd h id
      | cons typedCol typedCols =>
          obtain ⟨hhead, htail⟩ := h
          have hrest := ih htail
          rw [List.length_map] at hrest
          unfold HoldsColumn at hhead
          intro t ht
          by_cases hseg : c.isSegmentBy = true
          · exact hrest t (by simpa [blobColumns, hseg] using ht)
          · rw [if_neg hseg] at hhead
            have hcases : t = typedCol ∨ t ∈ blobColumns columns typedCols := by
              simpa [blobColumns, hseg] using ht
            rcases hcases with rfl | ht
            · rw [hhead.2, List.length_map]
            · exact hrest t ht

/-- Putting a row together from its segment-by values and from entry `j` of each blob. -/
theorem Collects.assembleRow_eq {j : ℕ} {cells : List (Option Value)}
    (h : Collects kindOf columns typedCols rows) (hj : rows[j]? = some cells)
    (hlength : cells.length = columns.length)
    (htext : ∀ p ∈ columns.zip cells, p.1.isSegmentBy = true →
      ∀ v ∈ p.2, v.asText.map Stored.text = some v.store) :
    assembleRow columns
        (((columns.zip cells).filter fun p => p.1.isSegmentBy).map fun p =>
          p.2.bind Value.asText)
        ((blobColumns columns typedCols).map fun t => t.cells[j]?.join) =
      cells.map (Option.map Value.store) := by
  induction columns generalizing typedCols rows cells with
  | nil => rw [List.length_eq_zero_iff.mp hlength]; rfl
  | cons c columns ih =>
      cases typedCols with
      | nil => exact absurd h id
      | cons typedCol typedCols =>
          cases cells with
          | nil => simp at hlength
          | cons cell cells =>
              obtain ⟨hhead, htail⟩ := h
              have hj' : (rows.map List.tail)[j]? = some cells := by simp [hj]
              have hrest := ih htail hj' (by simpa using hlength)
                (fun p hp => htext p (by simp [hp]))
              unfold HoldsColumn at hhead
              by_cases hseg : c.isSegmentBy = true
              · have hcell : (cell.bind Value.asText).map Stored.text = cell.map Value.store := by
                  cases cell with
                  | none => rfl
                  | some v => exact htext (c, some v) (by simp) hseg v rfl
                simpa [assembleRow, blobColumns, hseg, hcell] using hrest
              · rw [if_neg hseg] at hhead
                have hentry : typedCol.cells[j]?.join = cell.map Value.store := by
                  simp [hhead.2, hj, firstEntry]
                simpa [assembleRow, blobColumns, hseg, hentry] using hrest

/-! ## Rows -/

variable {plan : CompressPlan}

theorem FetchedRow.length_cells (r : FetchedRow plan) :
    r.cells.length = plan.columns.length :=
  r.typed.length_eq.symm

theorem FetchedRow.asText_of_segmentBy (r : FetchedRow plan) :
    ∀ p ∈ plan.columns.zip r.cells, p.1.isSegmentBy = true →
      ∀ v ∈ p.2, v.asText.map Stored.text = some v.store := by
  intro p hp hseg v hv
  have htext : plan.kindOf p.1 = .text := by simp [CompressPlan.kindOf, classifyColumn, hseg]
  have hkind := (List.forall₂_zip r.typed hp v hv).trans htext
  cases v <;> simp_all [Value.kind, Value.asText, Value.store]

theorem FetchedRow.length_segValues (r : FetchedRow plan) :
    r.segValues.length = (plan.columns.filter ColumnMeta.isSegmentBy).length := by
  have hzip : (plan.columns.zip r.cells).map Prod.fst = plan.columns :=
    List.map_fst_zip (by rw [r.length_cells])
  calc r.segValues.length
      = (((plan.columns.zip r.cells).map Prod.fst).filter ColumnMeta.isSegmentBy).length := by
        rw [FetchedRow.segValues, List.length_map, List.filter_map, List.length_map]
        rfl
    _ = (plan.columns.filter ColumnMeta.isSegmentBy).length := by rw [hzip]

theorem cells_eq_of_stored_eq {cells cells' : List (Option Value)}
    (htyped : List.Forall₂ (fun c cell => ∀ v ∈ cell, v.kind = kindOf c) columns cells)
    (htyped' : List.Forall₂ (fun c cell => ∀ v ∈ cell, v.kind = kindOf c) columns cells')
    (heq : cells.map (Option.map Value.store) = cells'.map (Option.map Value.store)) :
    cells = cells' := by
  induction htyped generalizing cells' with
  | nil =>
      cases htyped'
      rfl
  | @cons c cell columns cells hcell _ ih =>
      cases htyped' with
      | @cons _ cell' _ cells' hcell' htyped' =>
          rw [List.map_cons, List.map_cons, List.cons.injEq] at heq
          obtain ⟨hhead, htail⟩ := heq
          rw [ih htyped' htail, List.cons.injEq]
          refine ⟨?_, rfl⟩
          cases cell with
          | none => exact (Option.map_eq_none_iff.mp hhead.symm).symm
          | some v =>
              obtain ⟨w, rfl, hstore⟩ := Option.map_eq_some_iff.mp hhead.symm
              have hkind : v.kind = w.kind := (hcell v rfl).trans (hcell' w rfl).symm
              rw [Value.store_injective hkind hstore.symm]

theorem FetchedRow.stored_injective :
    Function.Injective (FetchedRow.stored : FetchedRow plan → List (Option Stored)) := by
  intro r r' heq
  have hcells := cells_eq_of_stored_eq r.typed r'.typed heq
  cases r
  cases r'
  congr

/-! ## Stored segments -/

/-- The stored segment holds the rows of the segment, with the segment-by values that all
of them have. -/
structure Stores (seg : StoredSegment) (abs : Segment (FetchedRow plan)) : Prop where
  id_eq : seg.segmentId = abs.id
  rowCount_eq : seg.rowCount = abs.rows.length
  rows_eq : seg.rows plan.columns = abs.rows.map FetchedRow.stored
  length_cells : ∀ blob ∈ seg.blobs, blob.2.cells.length = seg.rowCount
  names_eq : seg.segValues.map Prod.fst =
    (plan.columns.filter ColumnMeta.isSegmentBy).map ColumnMeta.name
  values_eq : ∀ r ∈ abs.rows, r.segValues = seg.segValues.map Prod.snd

theorem map_zipIdx_swap {α β : Type*} (f : α → β) (xs : List α) :
    (xs.zipIdx.map Prod.swap).map (fun b => f b.2) = xs.map f := by
  rw [List.map_map]
  calc xs.zipIdx.map ((fun b => f b.2) ∘ Prod.swap)
      = (xs.zipIdx.map Prod.fst).map f := by rw [List.map_map]; rfl
    _ = xs.map f := by rw [List.zipIdx_map_fst]

theorem flushSegmentMetadata_stores {rows : List (FetchedRow plan)}
    (h : Collects plan.kindOf plan.columns typedCols (rows.map FetchedRow.cells))
    {segValues : List (Option Text)} (hvalues : ∀ r ∈ rows, r.segValues = segValues)
    (hne : rows ≠ []) (hlt : rows.length < 2 ^ 32) (id : ℤ) :
    Stores (flushSegmentMetadata plan.columns typedCols segValues rows.length id)
      ⟨id, rows⟩ := by
  have hlength : segValues.length = (plan.columns.filter ColumnMeta.isSegmentBy).length := by
    rw [← hvalues _ (List.head_mem hne), FetchedRow.length_segValues]
  have hcount : rows.length % 2 ^ 32 = rows.length := Nat.mod_eq_of_lt hlt
  have hsnd : (((plan.columns.filter ColumnMeta.isSegmentBy).map ColumnMeta.name).zip
      segValues).map Prod.snd = segValues :=
    List.map_snd_zip (by rw [List.length_map, hlength])
  have hfst : (((plan.columns.filter ColumnMeta.isSegmentBy).map ColumnMeta.name).zip
      segValues).map Prod.fst = (plan.columns.filter ColumnMeta.isSegmentBy).map ColumnMeta.name :=
    List.map_fst_zip (by rw [List.length_map, hlength])
  refine ⟨rfl, hcount, ?_, ?_, hfst, ?_⟩
  · unfold StoredSegment.rows flushSegmentMetadata
    simp only [hcount, hsnd]
    apply List.ext_getElem (by simp)
    intro j hj hj'
    have hrow : j < rows.length := by simpa using hj
    have hget : (rows.map FetchedRow.cells)[j]? = some (rows[j]).cells := by simp [hrow]
    have hvals := hvalues _ (List.getElem_mem hrow)
    rw [List.getElem_map, List.getElem_map, List.getElem_range,
      map_zipIdx_swap (fun typedCol : TypedColumn => typedCol.cells[j]?.join), ← hvals]
    exact h.assembleRow_eq hget (rows[j]).length_cells (rows[j]).asText_of_segmentBy
  · intro blob hblob
    obtain ⟨p, hp, rfl⟩ := List.mem_map.mp hblob
    have hmem := List.fst_mem_of_mem_zipIdx hp
    calc p.1.cells.length = (rows.map FetchedRow.cells).length := h.length_cells _ hmem
      _ = rows.length := List.length_map _
      _ = rows.length % 2 ^ 32 := hcount.symm
  · intro r hr
    rw [hvalues r hr]
    exact hsnd.symm

/-! ## Chunks -/

theorem chunkColumns_collects (h : Collects kindOf columns typedCols rows)
    {offset chunkEnd : ℕ} (hle : offset ≤ chunkEnd) (hend : chunkEnd ≤ rows.length) :
    ∃ chunkCols, chunkColumns typedCols rows.length offset chunkEnd = some chunkCols ∧
      Collects kindOf columns chunkCols ((rows.take chunkEnd).drop offset) := by
  unfold chunkColumns
  split
  · rename_i hwhole
    obtain ⟨rfl, rfl⟩ := hwhole
    exact ⟨typedCols, rfl, by simpa using h⟩
  · exact h.slice hle hend

theorem take_drop_eq_chunk {α : Type*} (xs : List α) (offset size : ℕ) :
    (xs.drop offset).take size = (xs.take (min (offset + size) xs.length)).drop offset := by
  rw [← List.take_eq_take_min, List.drop_take, Nat.add_sub_cancel_left]

theorem drop_drop_eq_rest {α : Type*} (xs : List α) (offset size : ℕ) :
    (xs.drop offset).drop size = xs.drop (min (offset + size) xs.length) := by
  rw [List.drop_drop, ← List.drop_eq_drop_min]

theorem flushWithSplitting_stores {rows : List (FetchedRow plan)}
    (h : Collects plan.kindOf plan.columns typedCols (rows.map FetchedRow.cells))
    {segValues : List (Option Text)} (hvalues : ∀ r ∈ rows, r.segValues = segValues)
    (fuel offset : ℕ) (next : ℤ) :
    ∃ out, flushWithSplitting plan typedCols segValues rows.length fuel offset next = some out ∧
      List.Forall₂ Stores out.1
        (Partition.flushWithSplitting plan.segmentSize fuel next (rows.drop offset)).1 ∧
      out.2 = (Partition.flushWithSplitting plan.segmentSize fuel next (rows.drop offset)).2 := by
  induction fuel generalizing offset next with
  | zero => exact ⟨([], next), rfl, .nil, rfl⟩
  | succ fuel ih =>
      have hpos := plan.segmentSize_pos
      have hsmall := plan.segmentSize_lt
      unfold flushWithSplitting Partition.flushWithSplitting
      by_cases hoffset : offset < rows.length
      · generalize hend : min (offset + plan.segmentSize) rows.length = chunkEnd
        have hlength : ((rows.take chunkEnd).drop offset).length = chunkEnd - offset := by
          rw [List.length_drop, List.length_take]
          omega
        have hchunk : (rows.drop offset).take plan.segmentSize =
            (rows.take chunkEnd).drop offset := by
          rw [take_drop_eq_chunk, hend]
        have hrest : (rows.drop offset).drop plan.segmentSize = rows.drop chunkEnd := by
          rw [drop_drop_eq_rest, hend]
        obtain ⟨chunkCols, hcols, hcollects⟩ := chunkColumns_collects h
          (show offset ≤ chunkEnd by omega) (by rw [List.length_map]; omega)
        obtain ⟨out, hout, hstores, hnext⟩ := ih chunkEnd (wrapI32 (next + 1))
        rw [List.length_map] at hcols
        rw [← List.map_take, ← List.map_drop] at hcollects
        have hseg := flushSegmentMetadata_stores hcollects
          (fun r hr => hvalues r (List.mem_of_mem_take (List.mem_of_mem_drop hr)))
          (by rw [← List.length_pos_iff, hlength]; omega) (by rw [hlength]; omega) next
        rw [if_pos hoffset, if_neg (by simp; omega), hchunk, hrest]
        rw [hlength] at hseg
        refine ⟨(flushSegmentMetadata plan.columns chunkCols segValues (chunkEnd - offset) next ::
          out.1, out.2), ?_, .cons hseg hstores, hnext⟩
        simp only [hcols, hout, Option.bind_eq_bind, Option.bind_some]
      · rw [if_neg hoffset, if_pos (by simp; omega)]
        exact ⟨([], next), rfl, .nil, rfl⟩

/-! ## Sorting -/

theorem sortPerm_perm (typedCols : List TypedColumn) (orderColIndices : List ℕ) (numRows : ℕ) :
    (sortPerm typedCols orderColIndices numRows).Perm (List.range numRows) :=
  List.mergeSort_perm _ _

/-- Sorting the row numbers and then reading the rows sorts the rows. -/
theorem filterMap_mergeSort_range {α : Type*} (xs : List α) {r : ℕ → ℕ → Bool}
    {s : α → α → Bool}
    (h : ∀ i j a b, xs[i]? = some a → xs[j]? = some b → r i j = s a b) :
    (((List.range xs.length).mergeSort r).filterMap fun i => xs[i]?) = xs.mergeSort s := by
  cases xs with
  | nil => simp
  | cons x xs =>
      let read : ℕ → α := fun i => (x :: xs).getD i x
      have hread : ∀ i < (x :: xs).length, (x :: xs)[i]? = some (read i) := by
        intro i hi
        simp only [read, List.getD_eq_getElem?_getD, List.getElem?_eq_getElem hi,
          Option.getD_some]
      have hlt : ∀ i ∈ (List.range (x :: xs).length).mergeSort r, i < (x :: xs).length := by
        intro i hi
        exact List.mem_range.mp ((List.mergeSort_perm _ _).mem_iff.mp hi)
      have hrange : (List.range (x :: xs).length).map read = x :: xs := by
        apply List.ext_getElem? 
        intro i
        by_cases hi : i < (x :: xs).length
        · rw [List.getElem?_map, List.getElem?_range hi, Option.map_some, hread i hi]
        · rw [List.getElem?_eq_none (by simpa using hi), List.getElem?_eq_none (by simpa using hi)]
      calc ((List.range (x :: xs).length).mergeSort r).filterMap (fun i => (x :: xs)[i]?)
          = ((List.range (x :: xs).length).mergeSort r).filterMap (fun i => some (read i)) :=
            List.filterMap_congr fun i hi => hread i (hlt i hi)
        _ = ((List.range (x :: xs).length).mergeSort r).map read := by
            rw [List.filterMap_eq_map']
        _ = ((List.range (x :: xs).length).map read).mergeSort s := by
            apply List.map_mergeSort
            intro i hi j hj
            exact h i j _ _ (hread i (List.mem_range.mp hi)) (hread j (List.mem_range.mp hj))
        _ = (x :: xs).mergeSort s := by rw [hrange]

def FetchedRow.entry (i : ℕ) (r : FetchedRow plan) : Option Stored :=
  r.cells[i]?.join.map Value.store

/-- The order that rows are sorted in within a segment. -/
def rowLe (orderColIndices : List ℕ) (r r' : FetchedRow plan) : Bool :=
  compareBy FetchedRow.entry r r' orderColIndices != .gt

theorem compareBy_congr {ρ ρ' : Type*} {entry : ℕ → ρ → Option Stored}
    {entry' : ℕ → ρ' → Option Stored} {a b : ρ} {a' b' : ρ'} {orderColIndices : List ℕ}
    (ha : ∀ i ∈ orderColIndices, entry i a = entry' i a')
    (hb : ∀ i ∈ orderColIndices, entry i b = entry' i b') :
    compareBy entry a b orderColIndices = compareBy entry' a' b' orderColIndices := by
  induction orderColIndices with
  | nil => rfl
  | cons i order ih =>
      rw [compareBy, compareBy, ha i (by simp), hb i (by simp),
        ih (fun j hj => ha j (by simp [hj])) (fun j hj => hb j (by simp [hj]))]

theorem orderColIndices_spec {i : ℕ} (hi : i ∈ plan.orderColIndices) :
    ∃ c, plan.columns[i]? = some c := by
  obtain ⟨name, _, hfind⟩ := List.mem_filterMap.mp hi
  obtain ⟨hlt, _⟩ := List.findIdx?_eq_some_iff_getElem.mp hfind
  exact ⟨_, List.getElem?_eq_getElem hlt⟩

theorem sortTypedColumns_collects {rows : List (FetchedRow plan)}
    (hseg : ∀ c ∈ plan.columns, c.isSegmentBy = false)
    (h : Collects plan.kindOf plan.columns typedCols (rows.map FetchedRow.cells)) :
    ∃ typedCols',
      sortTypedColumns typedCols plan.orderColIndices rows.length = some typedCols' ∧
      Collects plan.kindOf plan.columns typedCols'
        ((rows.mergeSort (rowLe plan.orderColIndices)).map FetchedRow.cells) := by
  unfold sortTypedColumns
  split
  · rename_i hearly
    have hsorted : rows.mergeSort (rowLe plan.orderColIndices) = rows := by
      apply List.mergeSort_of_pairwise
      rw [Bool.or_eq_true, List.isEmpty_iff, decide_eq_true_eq] at hearly
      rcases hearly with hnone | hone
      · rw [hnone]
        exact List.pairwise_of_forall fun r r' => rfl
      · match rows, hone with
        | [], _ => exact .nil
        | [r], _ => exact List.pairwise_singleton _ r
    exact ⟨typedCols, rfl, by rwa [hsorted]⟩
  · have hlt : ∀ i ∈ sortPerm typedCols plan.orderColIndices rows.length,
        i < (rows.map FetchedRow.cells).length := by
      intro i hi
      rw [List.length_map]
      exact List.mem_range.mp ((sortPerm_perm _ _ _).mem_iff.mp hi)
    obtain ⟨typedCols', happly, hcollects⟩ := h.applyPermutation hseg hlt
    refine ⟨typedCols', happly, ?_⟩
    have hentry (row : ℕ) (r : FetchedRow plan) (hrow : rows[row]? = some r) :
        ∀ i ∈ plan.orderColIndices, cellAt typedCols i row = r.entry i := by
      intro i hi
      obtain ⟨c, hc⟩ := orderColIndices_spec hi
      rw [h.cellAt_eq hc (hseg c (List.mem_of_getElem? hc)), List.getElem?_map, hrow]
      rfl
    have hrows := filterMap_mergeSort_range rows
      (r := fun a b => compareBy (cellAt typedCols) a b plan.orderColIndices != .gt)
      (s := rowLe plan.orderColIndices)
      (fun i j a b hi hj => by rw [rowLe, compareBy_congr (hentry i a hi) (hentry j b hj)])
    rw [← hrows, List.map_filterMap]
    simpa only [sortPerm, List.getElem?_map] using hcollects

end DeltaX.Partition.Streaming
