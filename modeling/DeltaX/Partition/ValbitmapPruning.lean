import DeltaX.Partition.Valbitmap
/-!
# Pruning by value bitmaps

In every state a run reaches, a bitmap row covers the values of its segment: each
one stands in the column's list, and its bit is set.  The scan therefore skips only
segments without a match, as long as it reads the list as it was written.
-/

namespace DeltaX.Partition.Valbitmap

open Column Scan.MinMax Support.ByteBits Support.ListLookup Support.Machine Support.Numbering
  ValmapText

variable {columns : List ColumnMeta}

/-! ## Distinct values -/

theorem mem_insertKey {keys : List Text} {v w : Text} :
    w ∈ insertKey keys v ↔ w ∈ keys ∨ w = v := by
  unfold insertKey
  split
  case isTrue h =>
    constructor
    · exact .inl
    · rintro (hw | rfl)
      · exact hw
      · exact h
  case isFalse h => rw [List.mem_orderedInsert, or_comm]

theorem mem_foldl_insertKey {keys values : List Text} {w : Text} :
    w ∈ values.foldl insertKey keys ↔ w ∈ keys ∨ w ∈ values := by
  induction values generalizing keys with
  | nil => simp
  | cons v values ih => rw [List.foldl_cons, ih, mem_insertKey, List.mem_cons, or_assoc]

theorem length_insertKey_le {keys : List Text} {v : Text}
    (h : ¬(valbitmapMaxDistinct ≤ keys.length ∧ v ∉ keys))
    (hkeys : keys.length ≤ valbitmapMaxDistinct) :
    (insertKey keys v).length ≤ valbitmapMaxDistinct := by
  unfold insertKey
  split
  case isTrue hv => exact hkeys
  case isFalse hv =>
    rw [List.orderedInsert_length]
    by_contra hgt
    exact h ⟨by omega, hv⟩

/-- What the counting loop leaves, unless the map was full. -/
theorem countValues_eq_some {keys values out : List Text} (h : countValues keys values = some out) :
    out = values.foldl insertKey keys ∧
      (keys.length ≤ valbitmapMaxDistinct → out.length ≤ valbitmapMaxDistinct) := by
  induction values generalizing keys with
  | nil =>
      cases h
      exact ⟨rfl, id⟩
  | cons v values ih =>
      rw [countValues] at h
      split at h
      case isTrue => cases h
      case isFalse hroom =>
        obtain ⟨hout, hlen⟩ := ih h
        exact ⟨hout, fun hkeys => hlen (length_insertKey_le hroom hkeys)⟩

/-! ## The buffer -/

def SegmentData.storedCols (seg : SegmentData columns) : List (ColumnMeta × TypedColumn) :=
  (columns.zip seg.typedCols).filter fun c => !c.1.isSegmentBy

/-- The value occurs in the column stored under `ci`. -/
def SegmentData.Occurs (seg : SegmentData columns) (ci : ℕ) (v : Text) : Prop :=
  ∃ col values, seg.storedCols[ci]? = some (col, .text values) ∧ some v ∈ values

theorem map_fst_storedCols (seg : SegmentData columns) :
    seg.storedCols.map Prod.fst = storedColumns columns := by
  have hlen : columns.length ≤ seg.typedCols.length := seg.length_typedCols.ge
  rw [SegmentData.storedCols, storedColumns]
  conv_rhs => rw [← List.map_fst_zip hlen, List.filter_map]
  rfl

theorem exists_of_mem_computeSegmentValbitmapValues {start : ℕ}
    {cols : List (ColumnMeta × TypedColumn)} {e : ℕ × List Text}
    (h : e ∈ computeSegmentValbitmapValues start cols) :
    ∃ j col values, (cols.filter fun c => !c.1.isSegmentBy)[j]? = some (col, .text values) ∧
      e.1 = start + j ∧ countValues [] values.reduceOption = some e.2 := by
  induction cols generalizing start with
  | nil => cases h
  | cons c cols ih =>
      obtain ⟨col, data⟩ := c
      -- a later column keeps its place, one further on if this one is stored
      have hnext : e ∈ computeSegmentValbitmapValues (start + 1) cols → col.isSegmentBy = false →
          ∃ j col' values, (((col, data) :: cols).filter fun c => !c.1.isSegmentBy)[j]? =
            some (col', .text values) ∧ e.1 = start + j ∧
            countValues [] values.reduceOption = some e.2 := by
        intro he hseg
        obtain ⟨j, col', values, hget, hidx, hcount⟩ := ih he
        refine ⟨j + 1, col', values, ?_, by omega, hcount⟩
        simpa [hseg] using hget
      unfold computeSegmentValbitmapValues at h
      split at h
      case isTrue hseg =>
        obtain ⟨j, col', values, hget, hidx, hcount⟩ := ih h
        exact ⟨j, col', values, by simpa [hseg] using hget, hidx, hcount⟩
      case isFalse hseg =>
        have hseg : col.isSegmentBy = false := by simpa using hseg
        split at h
        case h_1 values =>
          split at h
          case h_1 keys hkeys =>
            rcases List.mem_cons.mp h with rfl | h
            · exact ⟨0, col, values, by simp [hseg], rfl, hkeys⟩
            · exact hnext h hseg
          case h_2 => exact hnext h hseg
        case h_2 => exact hnext h hseg

theorem exists_of_mem_valueBuffer {segments : List (SegmentData columns)} {e : BufferEntry}
    (h : e ∈ valueBuffer segments) :
    ∃ seg ∈ segments, seg.id = e.segmentId ∧ (∃ col, (storedColumns columns)[e.colIdx]? = some col) ∧
      ∀ v, seg.Occurs e.colIdx v → v ∈ e.values := by
  obtain ⟨seg, hseg, he⟩ := List.mem_flatMap.mp h
  obtain ⟨p, hp, rfl⟩ := List.mem_map.mp he
  obtain ⟨j, col, values, hget, hidx, hcount⟩ := exists_of_mem_computeSegmentValbitmapValues hp
  have hcol : seg.storedCols[p.1]? = some (col, .text values) := by
    rw [hidx, Nat.zero_add]
    exact hget
  refine ⟨seg, hseg, rfl, ⟨col, ?_⟩, ?_⟩
  · rw [← map_fst_storedCols seg, List.getElem?_map, hcol]
    rfl
  · rintro v ⟨col', values', hget', hv⟩
    rw [hcol, Option.some.injEq, Prod.mk.injEq, TypedColumn.text.injEq] at hget'
    rw [← hget'.2] at hv
    rw [(countValues_eq_some hcount).1, mem_foldl_insertKey]
    exact .inr (List.reduceOption_mem_iff.mpr hv)

/-! ## The list of a column -/

/-- The values that the segments give to a column. -/
def collected (buffer : List BufferEntry) (ci : ℕ) : List Text :=
  (buffer.filter fun e => e.colIdx = ci).flatMap BufferEntry.values

theorem mem_collected {buffer : List BufferEntry} {ci : ℕ} {v : Text} :
    v ∈ collected buffer ci ↔ ∃ e ∈ buffer, e.colIdx = ci ∧ v ∈ e.values := by
  simp [collected, and_assoc]

theorem collected_append_singleton (buffer : List BufferEntry) (e : BufferEntry) (ci : ℕ) :
    collected (buffer ++ [e]) ci = collected buffer ci ++ if e.colIdx = ci then e.values else [] := by
  unfold collected
  split
  case isTrue h => simp [h]
  case isFalse h => simp [h]

/-- A column that did not overflow has the values collected so far. -/
def Aggregate.Holds (agg : Aggregate) (buffer : List BufferEntry) (ci : ℕ) : Prop :=
  if ci ∈ agg.overflowCols then agg.countByCol ci = none
  else ((agg.countByCol ci).getD []).length ≤ valbitmapMaxDistinct ∧
    ∀ v, v ∈ (agg.countByCol ci).getD [] ↔ v ∈ collected buffer ci

theorem Aggregate.add_of_ne (agg : Aggregate) {e : BufferEntry} {ci : ℕ} (hne : ci ≠ e.colIdx) :
    (agg.add e).countByCol ci = agg.countByCol ci ∧
      (ci ∈ (agg.add e).overflowCols ↔ ci ∈ agg.overflowCols) := by
  unfold Aggregate.add
  split
  · simp
  · split <;> simp [hne]

theorem Aggregate.Holds.add {agg : Aggregate} {buffer : List BufferEntry} {ci : ℕ}
    (h : agg.Holds buffer ci) (e : BufferEntry) : (agg.add e).Holds (buffer ++ [e]) ci := by
  unfold Aggregate.Holds at h ⊢
  rw [collected_append_singleton]
  by_cases hne : ci = e.colIdx
  · subst hne
    rw [if_pos rfl]
    unfold Aggregate.add
    by_cases hover : e.colIdx ∈ agg.overflowCols
    · rw [if_pos hover] at h
      simp only [hover, if_true, h]
    · rw [if_neg hover] at h
      simp only [hover, if_false]
      cases hcount : countValues ((agg.countByCol e.colIdx).getD []) e.values with
      | none => simp
      | some keys =>
          obtain ⟨hout, hlen⟩ := countValues_eq_some hcount
          simp only [hover, if_false, Function.update_self, Option.getD_some]
          refine ⟨hlen h.1, ?_⟩
          intro v
          rw [hout, mem_foldl_insertKey, h.2, List.mem_append]
  · obtain ⟨hcount, hover⟩ := agg.add_of_ne hne
    rw [if_neg (Ne.symm hne), List.append_nil, hcount]
    simpa only [hover] using h

theorem holds_aggregate (buffer : List BufferEntry) (ci : ℕ) : (aggregate buffer).Holds buffer ci := by
  induction buffer using List.reverseRecOn with
  | nil => simp [Aggregate.Holds, aggregate, collected]
  | append_singleton buffer e ih =>
      rw [aggregate, List.foldl_append]
      exact ih.add e

/-- A finalized column lists exactly its values, and not too many. -/
theorem aggregate_eq_some {buffer : List BufferEntry} {ci : ℕ} {dict : List Text}
    (h : (aggregate buffer).countByCol ci = some dict) :
    dict.length ≤ valbitmapMaxDistinct ∧ ∀ v, v ∈ dict ↔ v ∈ collected buffer ci := by
  have hholds := holds_aggregate buffer ci
  unfold Aggregate.Holds at hholds
  split at hholds
  case isTrue =>
    rw [hholds] at h
    cases h
  case isFalse => simpa only [h, Option.getD_some] using hholds

/-! ## The value map -/

section insertEach

variable {values : ColumnMeta × ℕ → Option (List Text)} {valmap : ValueMap}
  {cols : List (ColumnMeta × ℕ)}

theorem insertEach_cons (p : ColumnMeta × ℕ) :
    insertEach values valmap (p :: cols) =
      insertEach values
        (match values p with
          | some vs => valmap.insert p.1.name vs
          | none => valmap) cols := rfl

theorem lookup_insertEach_of_notMem {name : Text}
    (h : ∀ p ∈ cols, p.1.name = name → values p = none) :
    (insertEach values valmap cols).lookup name = valmap.lookup name := by
  induction cols generalizing valmap with
  | nil => rfl
  | cons p cols ih =>
      rw [insertEach_cons, ih fun q hq => h q (List.mem_cons_of_mem _ hq)]
      split
      case h_1 vs hvs =>
        apply AList.lookup_insert_ne
        rintro rfl
        rw [h p List.mem_cons_self rfl] at hvs
        cases hvs
      case h_2 => rfl

theorem exists_of_lookup_insertEach {name : Text} {dict : List Text}
    (h : (insertEach values valmap cols).lookup name = some dict) :
    valmap.lookup name = some dict ∨ ∃ p ∈ cols, p.1.name = name ∧ values p = some dict := by
  induction cols generalizing valmap with
  | nil => exact .inl h
  | cons p cols ih =>
      rw [insertEach_cons] at h
      obtain h | ⟨q, hq, hname, hvalues⟩ := ih h
      · split at h
        case h_1 vs hvs =>
          by_cases hname : name = p.1.name
          · subst hname
            rw [AList.lookup_insert, Option.some.injEq] at h
            exact .inr ⟨p, List.mem_cons_self, rfl, h ▸ hvs⟩
          · rw [AList.lookup_insert_ne hname] at h
            exact .inl h
        case h_2 => exact .inl h
      · exact .inr ⟨q, List.mem_cons_of_mem _ hq, hname, hvalues⟩

theorem lookup_insertEach_of_mem (hnames : (cols.map fun p => p.1.name).Nodup)
    {p : ColumnMeta × ℕ} (hp : p ∈ cols) {dict : List Text} (hdict : values p = some dict) :
    (insertEach values valmap cols).lookup p.1.name = some dict := by
  induction cols generalizing valmap with
  | nil => cases hp
  | cons q cols ih =>
      rw [List.map_cons, List.nodup_cons] at hnames
      rw [insertEach_cons]
      rcases List.mem_cons.mp hp with rfl | hp
      · rw [lookup_insertEach_of_notMem, hdict, AList.lookup_insert]
        intro r hr hname
        exact absurd (List.mem_map_of_mem hr) (hname ▸ hnames.1)
      · exact ih hnames.2 hp

end insertEach

/-! ## Names and bits -/

section Names

variable (hnames : (columns.map ColumnMeta.name).Nodup)

include hnames

theorem nodup_names_zipIdx :
    (((storedColumns columns).zipIdx).map fun p => p.1.name).Nodup := by
  have hstored : ((storedColumns columns).map ColumnMeta.name).Nodup :=
    hnames.sublist (List.filter_sublist.map _)
  rwa [← List.zipIdx_map_fst 0 (storedColumns columns), List.map_map] at hstored

theorem nameToIdx_eq_some {ci : ℕ} {col : ColumnMeta}
    (hcol : (storedColumns columns)[ci]? = some col) : nameToIdx columns col.name = some ci := by
  have hmem : (col, ci) ∈ (storedColumns columns).zipIdx :=
    List.mem_zipIdx_iff_getElem?.mpr hcol
  exact updateAll_of_mem (nodup_names_zipIdx hnames) hmem

omit hnames in
theorem exists_of_nameToIdx {name : Text} {ci : ℕ} (h : nameToIdx columns name = some ci) :
    ∃ col, (storedColumns columns)[ci]? = some col ∧ col.name = name := by
  obtain hnone | ⟨p, hp, hname, rfl⟩ := exists_of_updateAll h
  · cases hnone
  · exact ⟨p.1, List.mem_zipIdx_iff_getElem?.mp hp, hname⟩

end Names

omit columns in
theorem idxOf?_eq_some {dict : List Text} {v : Text} (h : v ∈ dict) :
    dict.idxOf? v = some (dict.idxOf v) := by
  cases hidx : dict.idxOf? v with
  | none => exact absurd h (List.idxOf?_eq_none_iff.mp hidx)
  | some i => rw [List.idxOf_eq_getD_idxOf?, hidx, Option.getD_some]

theorem testBit_encodeBits {dict values : List Text} {nBytes : ℕ} (hlen : dict.length ≤ 8 * nBytes)
    {v : Text} (hv : v ∈ values) (hdict : v ∈ dict) :
    testBit (encodeBits dict nBytes values) (dict.idxOf v) = true := by
  have hmem : dict.idxOf v ∈ values.filterMap fun w => dict.idxOf? w :=
    List.mem_filterMap.mpr ⟨v, hv, idxOf?_eq_some hdict⟩
  have hlt : dict.idxOf v < dict.length := List.idxOf_lt_length_iff.mpr hdict
  rw [encodeBits, testBit_setBits, List.length_replicate]
  simp only [hmem, true_and, Bool.or_eq_true, decide_eq_true_eq]
  exact .inr (by omega)

/-! ## The invariant -/

/-- A bitmap row covers its segment: every value that occurs there is listed for the
column, and its bit is set. -/
def Covers (segments : List (SegmentData columns)) (valmap : ValueMap) (r : ValbitmapRow) : Prop :=
  ∃ col dict, (storedColumns columns)[r.colIdx]? = some col ∧ valmap.lookup col.name = some dict ∧
    ∀ seg ∈ segments, seg.id = r.segmentId → ∀ v, seg.Occurs r.colIdx v →
      v ∈ dict ∧ testBit r.bits (dict.idxOf v) = true

/-- The value map names columns and keeps to the cap; every row belongs to a live
segment and covers it. -/
structure Tracks (segments : List (SegmentData columns)) (valmap : ValueMap)
    (rows : List ValbitmapRow) : Prop where
  listed : ∀ name dict, valmap.lookup name = some dict →
    dict.length ≤ valbitmapMaxDistinct ∧ ∃ col ∈ columns, col.name = name
  live : ∀ r ∈ rows, r.segmentId ∈ segments.map SegmentData.id
  covers : ∀ r ∈ rows, Covers segments valmap r

theorem covers_encodeBits {segments new : List (SegmentData columns)} {valmap : ValueMap}
    (hnodup : (segments.map SegmentData.id).Nodup) (hsub : ∀ seg ∈ new, seg ∈ segments)
    {e : BufferEntry} (he : e ∈ valueBuffer new) {col : ColumnMeta} {dict : List Text}
    (hcol : (storedColumns columns)[e.colIdx]? = some col)
    (hlookup : valmap.lookup col.name = some dict) (hvalues : ∀ v ∈ e.values, v ∈ dict)
    {nBytes : ℕ} (hlen : dict.length ≤ 8 * nBytes) :
    Covers segments valmap ⟨e.colIdx, e.segmentId, encodeBits dict nBytes e.values⟩ := by
  refine ⟨col, dict, hcol, hlookup, ?_⟩
  intro seg hseg hid v hoccurs
  obtain ⟨seg', hseg', hid', -, hmem⟩ := exists_of_mem_valueBuffer he
  have heq : seg = seg' :=
    List.inj_on_of_nodup_map hnodup hseg (hsub seg' hseg') (hid.trans hid'.symm)
  subst heq
  have hv := hmem v hoccurs
  exact ⟨hvalues v hv, testBit_encodeBits hlen hv (hvalues v hv)⟩

theorem segmentId_mem_of_valueBuffer {new : List (SegmentData columns)} {e : BufferEntry}
    (he : e ∈ valueBuffer new) : e.segmentId ∈ new.map SegmentData.id := by
  obtain ⟨seg, hseg, hid, -, -⟩ := exists_of_mem_valueBuffer he
  exact hid ▸ List.mem_map_of_mem hseg

/-- A row still covers its segment when others join that have other ids. -/
theorem Covers.append {segments new : List (SegmentData columns)} {valmap : ValueMap}
    {r : ValbitmapRow} (h : Covers segments valmap r)
    (hnew : r.segmentId ∉ new.map SegmentData.id) : Covers (segments ++ new) valmap r := by
  obtain ⟨col, dict, hcol, hlookup, hcover⟩ := h
  refine ⟨col, dict, hcol, hlookup, ?_⟩
  intro seg hseg hid
  rcases List.mem_append.mp hseg with hseg | hseg
  · exact hcover seg hseg hid
  · exact absurd (hid ▸ List.mem_map_of_mem hseg) hnew

theorem Covers.congr {segments : List (SegmentData columns)} {valmap valmap' : ValueMap}
    {r : ValbitmapRow} (h : Covers segments valmap r)
    (hlookup : ∀ col, (storedColumns columns)[r.colIdx]? = some col →
      valmap'.lookup col.name = valmap.lookup col.name) : Covers segments valmap' r := by
  obtain ⟨col, dict, hcol, hdict, hcover⟩ := h
  exact ⟨col, dict, hcol, (hlookup col hcol).trans hdict, hcover⟩

/-- Values appended to a list leave the bits of the listed ones where they are. -/
theorem Covers.extend {segments : List (SegmentData columns)} {valmap valmap' : ValueMap}
    {r : ValbitmapRow} (h : Covers segments valmap r) {col : ColumnMeta} {dict novel : List Text}
    (hcol : (storedColumns columns)[r.colIdx]? = some col)
    (hold : valmap.lookup col.name = some dict)
    (hnew : valmap'.lookup col.name = some (dict ++ novel)) : Covers segments valmap' r := by
  obtain ⟨col', dict', hcol', hdict', hcover⟩ := h
  rw [hcol, Option.some.injEq] at hcol'
  subst hcol'
  rw [hold, Option.some.injEq] at hdict'
  subst hdict'
  refine ⟨col, dict ++ novel, hcol, hnew, ?_⟩
  intro seg hseg hid v hoccurs
  obtain ⟨hmem, hbit⟩ := hcover seg hseg hid v hoccurs
  exact ⟨List.mem_append_left _ hmem, by rwa [List.idxOf_append_of_mem hmem]⟩

theorem Tracks.append {segments new : List (SegmentData columns)} {valmap : ValueMap}
    {rows : List ValbitmapRow} (h : Tracks segments valmap rows)
    (hnodup : ((segments ++ new).map SegmentData.id).Nodup) :
    Tracks (segments ++ new) valmap rows := by
  rw [List.map_append] at hnodup
  refine ⟨h.listed, ?_, ?_⟩
  · intro r hr
    rw [List.map_append]
    exact List.mem_append_left _ (h.live r hr)
  · intro r hr
    exact (h.covers r hr).append fun hnew => (List.disjoint_of_nodup_append hnodup) (h.live r hr) hnew

/-! ## Compression keeps the invariant -/

/-- The values a compression lists for a column. -/
theorem exists_of_lookup_finalize {buffer : List BufferEntry} {name : Text} {dict : List Text}
    (h : (finalizeAndInsertValbitmaps columns buffer).1.lookup name = some dict) :
    ∃ ci col, (storedColumns columns)[ci]? = some col ∧ col.name = name ∧
      (aggregate buffer).countByCol ci = some dict := by
  obtain hnone | ⟨p, hp, hname, hdict⟩ := exists_of_lookup_insertEach h
  · rw [AList.lookup_empty] at hnone
    cases hnone
  · exact ⟨p.2, p.1, List.mem_zipIdx_iff_getElem?.mp hp, hname, hdict⟩

theorem mem_of_getElem?_storedColumns {ci : ℕ} {col : ColumnMeta}
    (h : (storedColumns columns)[ci]? = some col) : col ∈ columns ∧ col.isSegmentBy = false := by
  have hmem := List.mem_filter.mp (List.mem_of_getElem? h)
  exact ⟨hmem.1, by simpa using hmem.2⟩

theorem lookup_augmentSegmentByStats (hnames : (columns.map ColumnMeta.name).Nodup)
    (segments : List (SegmentData columns)) (valmap : ValueMap) {ci : ℕ} {col : ColumnMeta}
    (hcol : (storedColumns columns)[ci]? = some col) :
    (augmentSegmentByStats segments valmap).lookup col.name = valmap.lookup col.name := by
  obtain ⟨hmem, hseg⟩ := mem_of_getElem?_storedColumns hcol
  apply lookup_insertEach_of_notMem
  intro p hp hname
  have hp := List.mem_filter.mp (List.fst_mem_of_mem_zipIdx hp)
  have heq := List.inj_on_of_nodup_map hnames hp.1 hmem hname
  rw [heq, hseg] at hp
  exact absurd hp.2 (by decide)

theorem tracks_compress (hnames : (columns.map ColumnMeta.name).Nodup)
    {segments : List (SegmentData columns)} (hnodup : (segments.map SegmentData.id).Nodup) :
    Tracks segments
      (augmentSegmentByStats segments
        (finalizeAndInsertValbitmaps columns (valueBuffer segments)).1)
      (finalizeAndInsertValbitmaps columns (valueBuffer segments)).2 := by
  have hrow : ∀ r ∈ (finalizeAndInsertValbitmaps columns (valueBuffer segments)).2,
      ∃ e ∈ valueBuffer segments, ∃ dict,
        (aggregate (valueBuffer segments)).countByCol e.colIdx = some dict ∧
        r = ⟨e.colIdx, e.segmentId, encodeBits dict ((dict.length + 7) / 8) e.values⟩ := by
    intro r hr
    obtain ⟨e, he, hr⟩ := List.mem_filterMap.mp hr
    obtain ⟨dict, hdict, rfl⟩ := Option.map_eq_some_iff.mp hr
    exact ⟨e, he, dict, hdict, rfl⟩
  refine ⟨?_, ?_, ?_⟩
  · intro name dict hlookup
    obtain h | ⟨p, hp, hname, hdict⟩ := exists_of_lookup_insertEach hlookup
    · obtain ⟨ci, col, hcol, hname, hdict⟩ := exists_of_lookup_finalize h
      exact ⟨(aggregate_eq_some hdict).1, col, (mem_of_getElem?_storedColumns hcol).1, hname⟩
    · have hmem := (List.mem_filter.mp (List.fst_mem_of_mem_zipIdx hp)).1
      dsimp only at hdict
      split at hdict
      case isTrue hcond =>
        rw [Option.some.injEq] at hdict
        exact ⟨hdict ▸ hcond.2.2, p.1, hmem, hname⟩
      case isFalse => cases hdict
  · intro r hr
    obtain ⟨e, he, dict, -, rfl⟩ := hrow r hr
    exact segmentId_mem_of_valueBuffer he
  · intro r hr
    obtain ⟨e, he, dict, hdict, rfl⟩ := hrow r hr
    obtain ⟨-, -, -, ⟨col, hcol⟩, -⟩ := exists_of_mem_valueBuffer he
    have hmem : (col, e.colIdx) ∈ (storedColumns columns).zipIdx :=
      List.mem_zipIdx_iff_getElem?.mpr hcol
    have hlookup : (finalizeAndInsertValbitmaps columns (valueBuffer segments)).1.lookup col.name =
        some dict := lookup_insertEach_of_mem (nodup_names_zipIdx hnames) hmem hdict
    apply covers_encodeBits hnodup (fun seg hseg => hseg) he hcol
    · rw [lookup_augmentSegmentByStats hnames segments _ hcol, hlookup]
    · intro v hv
      exact ((aggregate_eq_some hdict).2 v).mpr (mem_collected.mpr ⟨e, he, rfl, hv⟩)
    · omega

/-! ## Compaction keeps the invariant -/

/-- What one column of a compaction can do: be given up, with its rows, or have the
new values appended and a row written for each new segment. -/
theorem appendColumn_cases (buffer : List BufferEntry) (n : ℕ) {valmap : ValueMap}
    (rows : List ValbitmapRow) {name : Text} {existing : List Text}
    (hname : valmap.lookup name = some existing) :
    (∃ kept, appendColumn columns buffer n (valmap, rows) name = (valmap.erase name, kept) ∧
      ∀ r ∈ kept, r ∈ rows ∧ nameToIdx columns name ≠ some r.colIdx) ∨
    ∃ ci novel valmap', nameToIdx columns name = some ci ∧
      (buffer.filter fun e => e.colIdx = ci).length = n ∧
      (∀ v, v ∈ novel ↔ v ∈ collected buffer ci ∧ v ∉ existing) ∧
      existing.length + novel.length ≤ valbitmapMaxDistinct ∧
      valmap'.lookup name = some (existing ++ novel) ∧
      (∀ other, other ≠ name → valmap'.lookup other = valmap.lookup other) ∧
      appendColumn columns buffer n (valmap, rows) name =
        (valmap', rows ++ (buffer.filter fun e => e.colIdx = ci).map fun e =>
          ⟨ci, e.segmentId, encodeBits (existing ++ novel)
            (max (((existing ++ novel).length + 7) / 8) 1) e.values⟩) := by
  unfold appendColumn
  cases hidx : nameToIdx columns name with
  | none => exact .inl ⟨rows, rfl, fun r hr => ⟨hr, by simp⟩⟩
  | some ci =>
      have hdropped : ∀ r ∈ rows.filter fun r => r.colIdx ≠ ci,
          r ∈ rows ∧ some ci ≠ some r.colIdx := by
        intro r hr
        have hr := List.mem_filter.mp hr
        have hne : r.colIdx ≠ ci := by simpa using hr.2
        exact ⟨hr.1, fun heq => hne (Option.some.inj heq).symm⟩
      simp only [hname, Option.getD_some]
      split
      case isTrue => exact .inl ⟨_, rfl, hdropped⟩
      case isFalse hcount =>
        split
        case isTrue => exact .inl ⟨_, rfl, hdropped⟩
        case isFalse hcap =>
          set novel := (((buffer.filter fun e => e.colIdx = ci).flatMap BufferEntry.values).filter
            fun v => v ∉ existing).foldl insertKey [] with hnovel
          have hmem : ∀ v, v ∈ novel ↔ v ∈ collected buffer ci ∧ v ∉ existing := by
            intro v
            rw [hnovel, mem_foldl_insertKey]
            simp [collected]
          refine .inr ⟨ci, novel, _, rfl, not_not.mp hcount, hmem, not_lt.mp hcap, ?_, ?_, rfl⟩
          · cases hempty : novel with
            | nil => simpa using hname
            | cons v vs => simp
          · intro other hne
            cases hempty : novel with
            | nil => rfl
            | cons v vs => simp [AList.lookup_insert_ne hne]

theorem lookup_appendColumn_of_ne (buffer : List BufferEntry) (n : ℕ) {valmap : ValueMap}
    (rows : List ValbitmapRow) {name other : Text} {existing : List Text}
    (hname : valmap.lookup name = some existing) (hne : other ≠ name) :
    (appendColumn columns buffer n (valmap, rows) name).1.lookup other = valmap.lookup other := by
  obtain ⟨kept, heq, -⟩ | ⟨ci, novel, valmap', -, -, -, -, -, hother, heq⟩ :=
    appendColumn_cases buffer n rows hname
  · rw [heq, AList.lookup_erase_ne hne]
  · rw [heq, hother other hne]

/-- An invariant of the loop over the columns.  Each column is met once, with the
list it had at the start. -/
theorem appendValbitmaps_induct {I : ValueMap × List ValbitmapRow → Prop}
    {buffer : List BufferEntry} {n : ℕ} (start : ValueMap)
    (hstep : ∀ valmap rows name existing, start.lookup name = some existing →
      valmap.lookup name = some existing → I (valmap, rows) →
      I (appendColumn columns buffer n (valmap, rows) name))
    {rows : List ValbitmapRow} (hI : I (start, rows)) :
    I (appendValbitmapsForCompaction columns buffer n (start, rows)) := by
  have hloop : ∀ (names : List Text) (acc : ValueMap × List ValbitmapRow), names.Nodup →
      (∀ name ∈ names, name ∈ start ∧ acc.1.lookup name = start.lookup name) → I acc →
      I (names.foldl (appendColumn columns buffer n) acc) := by
    intro names
    induction names with
    | nil => exact fun acc _ _ hacc => hacc
    | cons name names ih =>
        intro acc hnodup hsame hacc
        rw [List.nodup_cons] at hnodup
        obtain ⟨hmem, hlookup⟩ := hsame name List.mem_cons_self
        obtain ⟨existing, hexisting⟩ := Option.isSome_iff_exists.mp (AList.lookup_isSome.mpr hmem)
        rw [hexisting] at hlookup
        apply ih _ hnodup.2
        · intro other hother
          obtain ⟨hin, hsame⟩ := hsame other (List.mem_cons_of_mem _ hother)
          have hne : other ≠ name := fun heq => hnodup.1 (heq ▸ hother)
          exact ⟨hin, (lookup_appendColumn_of_ne buffer n acc.2 hlookup hne).trans hsame⟩
        · exact hstep acc.1 acc.2 name existing hexisting hlookup hacc
  apply hloop start.keys (start, rows) start.keys_nodup
  · exact fun name hname => ⟨hname, rfl⟩
  · exact hI

/-- A column that is given up takes its rows with it. -/
theorem Tracks.erase (hnames : (columns.map ColumnMeta.name).Nodup)
    {segments : List (SegmentData columns)} {valmap : ValueMap} {rows kept : List ValbitmapRow}
    {name : Text} (h : Tracks segments valmap rows)
    (hkept : ∀ r ∈ kept, r ∈ rows ∧ nameToIdx columns name ≠ some r.colIdx) :
    Tracks segments (valmap.erase name) kept := by
  refine ⟨?_, fun r hr => h.live r (hkept r hr).1, ?_⟩
  · intro other dict hdict
    have hne : other ≠ name := by
      rintro rfl
      rw [AList.lookup_erase] at hdict
      cases hdict
    rw [AList.lookup_erase_ne hne] at hdict
    exact h.listed other dict hdict
  · intro r hr
    obtain ⟨hr, hne⟩ := hkept r hr
    apply (h.covers r hr).congr
    intro col hcol
    apply AList.lookup_erase_ne
    rintro rfl
    exact hne (nameToIdx_eq_some hnames hcol)

/-- A list that grows at its end, within the cap, leaves the rows covering. -/
theorem Tracks.extend {segments : List (SegmentData columns)} {valmap valmap' : ValueMap}
    {rows : List ValbitmapRow} {name : Text} {existing novel : List Text}
    (h : Tracks segments valmap rows) (hname : valmap.lookup name = some existing)
    (hcap : existing.length + novel.length ≤ valbitmapMaxDistinct)
    (hlookup : valmap'.lookup name = some (existing ++ novel))
    (hother : ∀ other, other ≠ name → valmap'.lookup other = valmap.lookup other) :
    Tracks segments valmap' rows := by
  refine ⟨?_, h.live, ?_⟩
  · intro other dict hdict
    by_cases hne : other = name
    · subst hne
      rw [hlookup, Option.some.injEq] at hdict
      refine ⟨?_, (h.listed other existing hname).2⟩
      rw [← hdict, List.length_append]
      exact hcap
    · rw [hother other hne] at hdict
      exact h.listed other dict hdict
  · intro r hr
    obtain ⟨col, dict, hcol, hdict, hcover⟩ := h.covers r hr
    by_cases hne : col.name = name
    · exact (h.covers r hr).extend hcol (hne ▸ hname) (hne ▸ hlookup)
    · exact ⟨col, dict, hcol, (hother _ hne).trans hdict, hcover⟩

theorem Tracks.append_rows {segments : List (SegmentData columns)} {valmap : ValueMap}
    {rows new : List ValbitmapRow} (h : Tracks segments valmap rows)
    (hnew : ∀ r ∈ new, r.segmentId ∈ segments.map SegmentData.id ∧ Covers segments valmap r) :
    Tracks segments valmap (rows ++ new) := by
  refine ⟨h.listed, ?_, ?_⟩
  · intro r hr
    rcases List.mem_append.mp hr with hr | hr
    · exact h.live r hr
    · exact (hnew r hr).1
  · intro r hr
    rcases List.mem_append.mp hr with hr | hr
    · exact h.covers r hr
    · exact (hnew r hr).2

theorem tracks_appendColumn (hnames : (columns.map ColumnMeta.name).Nodup)
    {segments new : List (SegmentData columns)} (hnodup : (segments.map SegmentData.id).Nodup)
    (hsub : ∀ seg ∈ new, seg ∈ segments) {n : ℕ} {valmap : ValueMap} {rows : List ValbitmapRow}
    {name : Text} {existing : List Text} (hname : valmap.lookup name = some existing)
    (h : Tracks segments valmap rows) :
    Tracks segments (appendColumn columns (valueBuffer new) n (valmap, rows) name).1
      (appendColumn columns (valueBuffer new) n (valmap, rows) name).2 := by
  obtain ⟨kept, heq, hkept⟩ | ⟨ci, novel, valmap', hidx, -, hmem, hcap, hlookup, hother, heq⟩ :=
    appendColumn_cases (valueBuffer new) n rows hname
  · rw [heq]
    exact h.erase hnames hkept
  · rw [heq]
    apply (h.extend hname hcap hlookup hother).append_rows
    intro r hr
    obtain ⟨e, he, rfl⟩ := List.mem_map.mp hr
    obtain ⟨hbuffer, hci⟩ := List.mem_filter.mp he
    have hci : e.colIdx = ci := by simpa using hci
    subst hci
    obtain ⟨col, hcol, hcolname⟩ := exists_of_nameToIdx hidx
    obtain ⟨seg, hseg, hid⟩ := List.mem_map.mp (segmentId_mem_of_valueBuffer hbuffer)
    refine ⟨List.mem_map.mpr ⟨seg, hsub seg hseg, hid⟩, ?_⟩
    apply covers_encodeBits hnodup hsub hbuffer hcol (hcolname ▸ hlookup)
    · intro v hv
      by_cases hold : v ∈ existing
      · exact List.mem_append_left _ hold
      · exact List.mem_append_right _
          ((hmem v).mpr ⟨mem_collected.mpr ⟨e, hbuffer, rfl, hv⟩, hold⟩)
    · omega

/-! ## Runs -/

theorem step_cases {st st' : State columns} {op : Op columns} (hstep : step st op = .ok st') :
    st' = st ∨
    (∃ segments, op = .compress segments ∧ st.isCompressed = false ∧
      (segments.map SegmentData.id).Nodup ∧
      st' = ⟨true, segments,
        augmentSegmentByStats segments
          (finalizeAndInsertValbitmaps columns (valueBuffer segments)).1,
        (finalizeAndInsertValbitmaps columns (valueBuffer segments)).2⟩) ∨
    (∃ segments out, op = .compact segments ∧ st.isCompressed = true ∧
      ((st.segments ++ segments).map SegmentData.id).Nodup ∧
      out = appendValbitmapsForCompaction columns (valueBuffer segments) segments.length
        (st.valmap, st.rows) ∧
      st' = { st with segments := st.segments ++ segments, valmap := out.1, rows := out.2 }) ∨
    (∃ ids, op = .removeSegments ids ∧
      st' = { st with
        segments := st.segments.filter fun seg => seg.id ∉ ids
        rows := st.rows.filter fun r => r.segmentId ∉ ids }) ∨
    (op = .decompress ∧ st' = { st with isCompressed := false, segments := [], rows := [] }) := by
  cases op with
  | compress segments =>
      simp only [step] at hstep
      split_ifs at hstep with hdone hnodup
      · cases hstep
        exact .inl rfl
      · cases hstep
        have hcompressed : st.isCompressed = false := by
          simpa using fun hc => hdone (.inl hc)
        exact .inr (.inl ⟨segments, rfl, hcompressed, hnodup, rfl⟩)
  | compact segments =>
      simp only [step] at hstep
      split_ifs at hstep with hdone hnodup
      · cases hstep
        exact .inl rfl
      · cases hstep
        have hcompressed : st.isCompressed = true := by
          simpa using fun hc => hdone (.inl hc)
        exact .inr (.inr (.inl ⟨segments, _, rfl, hcompressed, hnodup, rfl, rfl⟩))
  | removeSegments ids =>
      cases hstep
      exact .inr (.inr (.inr (.inl ⟨ids, rfl, rfl⟩)))
  | decompress =>
      cases hstep
      exact .inr (.inr (.inr (.inr ⟨rfl, rfl⟩)))

theorem tracks_step (hnames : (columns.map ColumnMeta.name).Nodup) {st st' : State columns}
    {op : Op columns} (h : Tracks st.segments st.valmap st.rows) (hstep : step st op = .ok st') :
    Tracks st'.segments st'.valmap st'.rows := by
  obtain rfl | ⟨segments, -, -, hnodup, rfl⟩ | ⟨segments, out, -, -, hnodup, hout, rfl⟩ |
    ⟨ids, -, rfl⟩ | ⟨-, rfl⟩ := step_cases hstep
  · exact h
  · exact tracks_compress hnames hnodup
  · subst hout
    apply appendValbitmaps_induct
      (I := fun acc => Tracks (st.segments ++ segments) acc.1 acc.2) st.valmap
    · intro valmap rows name existing _ hname hacc
      exact tracks_appendColumn hnames hnodup (fun seg => List.mem_append_right _) hname hacc
    · exact h.append hnodup
  · refine ⟨h.listed, ?_, ?_⟩
    · intro r hr
      obtain ⟨hr, hkept⟩ := List.mem_filter.mp hr
      obtain ⟨seg, hseg, hid⟩ := List.mem_map.mp (h.live r hr)
      refine List.mem_map.mpr ⟨seg, List.mem_filter.mpr ⟨hseg, ?_⟩, hid⟩
      rwa [hid]
    · intro r hr
      obtain ⟨col, dict, hcol, hdict, hcover⟩ := h.covers r (List.mem_filter.mp hr).1
      exact ⟨col, dict, hcol, hdict, fun seg hseg => hcover seg (List.mem_filter.mp hseg).1⟩
  · exact ⟨h.listed, by simp, by simp⟩

theorem tracks_fresh : Tracks (fresh columns).segments (fresh columns).valmap (fresh columns).rows :=
  ⟨by simp [fresh], by simp [fresh], by simp [fresh]⟩

/-- A value occurs in a segment with a bitmap row only if it is listed at a position
below the cap and the bit at that position is set. -/
def RowsCovered (st : State columns) : Prop :=
  ∀ r ∈ st.rows, ∀ col, (storedColumns columns)[r.colIdx]? = some col →
    ∀ dict, st.valmap.lookup col.name = some dict →
      ∀ seg ∈ st.segments, seg.id = r.segmentId → ∀ v, seg.Occurs r.colIdx v →
        ∃ p < valbitmapMaxDistinct, dict[p]? = some v ∧ testBit r.bits p = true

theorem Tracks.rowsCovered {st : State columns} (h : Tracks st.segments st.valmap st.rows) :
    RowsCovered st := by
  intro r hr col hcol dict hdict seg hseg hid v hoccurs
  obtain ⟨col', dict', hcol', hdict', hcover⟩ := h.covers r hr
  rw [hcol, Option.some.injEq] at hcol'
  subst hcol'
  rw [hdict, Option.some.injEq] at hdict'
  subst hdict'
  obtain ⟨hmem, hbit⟩ := hcover seg hseg hid v hoccurs
  have hlt : dict.idxOf v < dict.length := List.idxOf_lt_length_iff.mpr hmem
  refine ⟨dict.idxOf v, hlt.trans_le (h.listed _ _ hdict).1, ?_, hbit⟩
  rw [List.getElem?_eq_getElem hlt, List.getElem_idxOf]

/-- The bitmaps stay exact along every run, whatever the values are. -/
theorem rowsCovered_run (hnames : (columns.map ColumnMeta.name).Nodup) (ops : List (Op columns)) :
    RowsCovered (reached columns ops) := by
  have hrun : Tracks (reached columns ops).segments (reached columns ops).valmap
      (reached columns ops).rows :=
    invariant_run (I := fun st : State columns => Tracks st.segments st.valmap st.rows)
      (fun _ _ _ h _ hstep => tracks_step hnames h hstep) tracks_fresh (along_true _ ops)
  exact hrun.rowsCovered

/-! ## Values that the scan reads back -/

/-- The listed values of stored columns are read as they were written. -/
def PlainValues (columns : List ColumnMeta) (valmap : ValueMap) : Prop :=
  ∀ (ci : ℕ) (col : ColumnMeta) (dict : List Text), (storedColumns columns)[ci]? = some col →
    valmap.lookup col.name = some dict → ∀ v ∈ dict, Plain v

/-- The values that an operation is about to list are printable ASCII.  Values of a
column that ends up without a list do not matter. -/
def ValuesReadable (st : State columns) : Op columns → Prop
  | .compress segments =>
      st.isCompressed = false →
        ∀ ci, (collected (valueBuffer segments) ci).toFinset.card ≤ valbitmapMaxDistinct →
          ∀ v ∈ collected (valueBuffer segments) ci, Plain v
  | .compact segments =>
      st.isCompressed = true →
        ∀ (ci : ℕ) (col : ColumnMeta) (existing : List Text),
          (storedColumns columns)[ci]? = some col → st.valmap.lookup col.name = some existing →
          ((valueBuffer segments).filter fun e => e.colIdx = ci).length = segments.length →
          (existing ++ collected (valueBuffer segments) ci).toFinset.card ≤ valbitmapMaxDistinct →
            ∀ v ∈ collected (valueBuffer segments) ci, Plain v
  | .removeSegments _ | .decompress => True

theorem card_toFinset_le {values dict : List Text} (hsub : ∀ v ∈ values, v ∈ dict)
    (hlen : dict.length ≤ valbitmapMaxDistinct) :
    values.toFinset.card ≤ valbitmapMaxDistinct := by
  have hle : values.toFinset ⊆ dict.toFinset := by
    intro v hv
    exact List.mem_toFinset.mpr (hsub v (List.mem_toFinset.mp hv))
  exact (Finset.card_le_card hle).trans ((List.toFinset_card_le dict).trans hlen)

theorem plainValues_appendColumn (hnames : (columns.map ColumnMeta.name).Nodup)
    {segments : List (SegmentData columns)} {valmap : ValueMap} {rows : List ValbitmapRow}
    {name : Text} {existing : List Text} (hname : valmap.lookup name = some existing)
    (h : PlainValues columns valmap)
    (hguard : ∀ (ci : ℕ) (col : ColumnMeta), (storedColumns columns)[ci]? = some col →
      col.name = name →
      ((valueBuffer segments).filter fun e => e.colIdx = ci).length = segments.length →
      (existing ++ collected (valueBuffer segments) ci).toFinset.card ≤ valbitmapMaxDistinct →
        ∀ v ∈ collected (valueBuffer segments) ci, Plain v) :
    PlainValues columns
      (appendColumn columns (valueBuffer segments) segments.length (valmap, rows) name).1 := by
  intro ci col dict hcol hdict v hv
  by_cases hne : col.name = name
  · obtain ⟨kept, heq, -⟩ | ⟨ci', novel, valmap', hidx, hall, hmem, hcap, hlookup, -, heq⟩ :=
      appendColumn_cases (valueBuffer segments) segments.length rows hname
    · rw [heq, hne, AList.lookup_erase] at hdict
      cases hdict
    · rw [heq, hne, hlookup, Option.some.injEq] at hdict
      subst hne hdict
      rw [nameToIdx_eq_some hnames hcol, Option.some.injEq] at hidx
      subst hidx
      rcases List.mem_append.mp hv with hv | hv
      · exact h ci col existing hcol hname v hv
      · have hsub : ∀ w ∈ existing ++ collected (valueBuffer segments) ci,
            w ∈ existing ++ novel := by
          intro w hw
          by_cases hold : w ∈ existing
          · exact List.mem_append_left _ hold
          · have hw := (List.mem_append.mp hw).resolve_left hold
            exact List.mem_append_right _ ((hmem w).mpr ⟨hw, hold⟩)
        have hcard := card_toFinset_le hsub (by rw [List.length_append]; exact hcap)
        exact hguard ci col hcol rfl hall hcard v ((hmem v).mp hv).1
  · rw [lookup_appendColumn_of_ne _ _ rows hname hne] at hdict
    exact h ci col dict hcol hdict v hv

theorem plainValues_step (hnames : (columns.map ColumnMeta.name).Nodup) {st st' : State columns}
    {op : Op columns} (h : PlainValues columns st.valmap) (hguard : ValuesReadable st op)
    (hstep : step st op = .ok st') : PlainValues columns st'.valmap := by
  obtain rfl | ⟨segments, rfl, hcompressed, -, rfl⟩ | ⟨segments, out, rfl, hcompressed, -, hout, rfl⟩ |
    ⟨ids, -, rfl⟩ | ⟨-, rfl⟩ := step_cases hstep
  · exact h
  · intro ci col dict hcol hdict v hv
    rw [lookup_augmentSegmentByStats hnames segments _ hcol] at hdict
    obtain ⟨ci', col', -, -, hcount⟩ := exists_of_lookup_finalize hdict
    obtain ⟨hlen, hmem⟩ := aggregate_eq_some hcount
    have hcard := card_toFinset_le (fun w hw => (hmem w).mpr hw) hlen
    exact hguard hcompressed ci' hcard v ((hmem v).mp hv)
  · subst hout
    apply appendValbitmaps_induct (I := fun acc => PlainValues columns acc.1) st.valmap
    · intro valmap rows name existing hstart hname hacc
      apply plainValues_appendColumn hnames hname hacc
      intro ci col hcol hcolname
      exact hguard hcompressed ci col existing hcol (hcolname ▸ hstart)
    · exact h
  · exact h
  · exact h

/-! ## The scan -/

/-- Some row of the segment has the value in the table's column `k`. -/
def SegmentData.HasValue (seg : SegmentData columns) (k : ℕ) (c : Text) : Prop :=
  ∃ values, seg.typedCols[k]? = some (.text values) ∧ some c ∈ values

/-- Every segment the scan leaves out has no row that matches one of the quals. -/
def SkipsOnlyMismatches (st : State columns) : Prop :=
  ∀ batchQuals, ∀ seg ∈ st.segments, seg ∉ survivingSegments st batchQuals →
    ∃ bq ∈ batchQuals, bq.op = .eq ∧ ∃ c, bq.textConst = some c ∧ ¬ seg.HasValue bq.colIdx c

/-- Column names are distinct, and none reads like another one. -/
structure NamesReadable (columns : List ColumnMeta) : Prop where
  nodup : (columns.map ColumnMeta.name).Nodup
  unambiguous : ∀ a ∈ columns, ∀ b ∈ columns, reread a.name = b.name → a.name = b.name

theorem exists_of_valbitmapCheck {valmap : Text → Option (List Text)} {bq : BatchQual}
    {check : ValbitmapCheck} (h : valbitmapCheck columns valmap bq = some check) :
    ∃ col needle values, bq.op = .eq ∧ columns[bq.colIdx]? = some col ∧
      col.isSegmentBy = false ∧ bq.textConst = some needle ∧ valmap col.name = some values ∧
      check = ⟨before (fun col : ColumnMeta => !col.isSegmentBy) columns bq.colIdx,
        (values.idxOf? needle).toList⟩ := by
  unfold valbitmapCheck at h
  split at h
  case isTrue hop =>
    obtain ⟨col, hcol, h⟩ := Option.bind_eq_some_iff.mp h
    obtain ⟨ci, hci, h⟩ := Option.bind_eq_some_iff.mp h
    obtain ⟨needle, hneedle, h⟩ := Option.bind_eq_some_iff.mp h
    obtain ⟨values, hvalues, h⟩ := Option.bind_eq_some_iff.mp h
    rw [getElem?_number, hcol, Option.map_some, Option.join_some] at hci
    split at hci
    case isTrue hseg =>
      cases hci
      cases h
      exact ⟨col, needle, values, hop.1, hcol, by simpa using hseg, hneedle, hvalues, by simp⟩
    case isFalse => cases hci
  case isFalse => cases h

/-- A value of a stored column occurs under the column's number. -/
theorem occurs_of_hasValue {seg : SegmentData columns} {k : ℕ} {col : ColumnMeta}
    (hcol : columns[k]? = some col) (hseg : col.isSegmentBy = false) {c : Text}
    (h : seg.HasValue k c) :
    seg.Occurs (before (fun col : ColumnMeta => !col.isSegmentBy) columns k) c := by
  obtain ⟨values, hget, hc⟩ := h
  have hzip : (columns.zip seg.typedCols)[k]? = some (col, .text values) := by
    rw [List.getElem?_zip_eq_some]
    exact ⟨hcol, hget⟩
  have hbefore : before (fun col : ColumnMeta => !col.isSegmentBy) columns k =
      before (fun c : ColumnMeta × TypedColumn => !c.1.isSegmentBy) (columns.zip seg.typedCols) k := by
    conv_lhs => rw [← List.map_fst_zip seg.length_typedCols.ge, before_map]
    rfl
  refine ⟨col, values, ?_, hc⟩
  rw [hbefore]
  exact getElem?_filter_before hzip (by simpa using hseg)

theorem mem_entriesOf {valmap : ValueMap} {e : Text × List Text} (h : e ∈ entriesOf valmap) :
    valmap.lookup e.1 = some e.2 := by
  obtain ⟨s, hs, rfl⟩ := List.mem_map.mp h
  exact AList.mem_lookup_iff.mpr hs

/-- The list the scan has for a stored column is the one in the value map. -/
theorem getColumnValmap_entriesOf (hnames : NamesReadable columns) {valmap : ValueMap}
    (hlisted : ∀ name dict, valmap.lookup name = some dict → ∃ col ∈ columns, col.name = name)
    (hplain : PlainValues columns valmap) {ci : ℕ} {col : ColumnMeta}
    (hcol : (storedColumns columns)[ci]? = some col) {values : List Text}
    (h : getColumnValmap (entriesOf valmap) col.name = some values) :
    valmap.lookup col.name = some values := by
  obtain ⟨e, he, hname, hvalues⟩ := exists_of_getColumnValmap h
  have hlookup := mem_entriesOf he
  obtain ⟨a, ha, hkey⟩ := hlisted e.1 e.2 hlookup
  have hmem := (mem_of_getElem?_storedColumns hcol).1
  have heq : e.1 = col.name := by
    rw [← hkey]
    exact hnames.unambiguous a ha col hmem (hkey ▸ hname)
  rw [heq] at hlookup
  have hread : e.2.map reread = e.2 := by
    rw [List.map_congr_left fun v hv => reread_of_plain (hplain ci col e.2 hcol hlookup v hv),
      List.map_id']
  rw [hlookup, ← hvalues, hread]

/-- A segment is left out because of a check and a row that does not pass it. -/
theorem exists_row_of_skipped {st : State columns} {batchQuals : List BatchQual}
    {seg : SegmentData columns} (hseg : seg ∈ st.segments)
    (hskipped : seg ∉ survivingSegments st batchQuals) :
    ∃ bq ∈ batchQuals, ∃ check,
      valbitmapCheck columns (getColumnValmap (entriesOf st.valmap)) bq = some check ∧
        ∃ r ∈ st.rows, r.segmentId = seg.id ∧ r.colIdx = check.colIdx ∧ check.passes r = false := by
  have hpruned : seg.id ∈ (batchQuals.filterMap
      (valbitmapCheck columns (getColumnValmap (entriesOf st.valmap)))).flatMap
        fun check => check.prunedIds st.rows := by
    by_contra hkept
    exact hskipped (List.mem_filter.mpr ⟨hseg, by simpa using hkept⟩)
  obtain ⟨check, hcheck, hid⟩ := List.mem_flatMap.mp hpruned
  obtain ⟨bq, hbq, hcheck⟩ := List.mem_filterMap.mp hcheck
  obtain ⟨r, hr, hrid⟩ := List.mem_map.mp hid
  obtain ⟨hr, hfail⟩ := List.mem_filter.mp hr
  exact ⟨bq, hbq, check, hcheck, r, hr, hrid, of_decide_eq_true hfail⟩

theorem Tracks.skipsOnlyMismatches (hnames : NamesReadable columns) {st : State columns}
    (h : Tracks st.segments st.valmap st.rows) (hplain : PlainValues columns st.valmap) :
    SkipsOnlyMismatches st := by
  intro batchQuals seg hseg hskipped
  obtain ⟨bq, hbq, check, hcheck, r, hr, hid, hci, hfail⟩ := exists_row_of_skipped hseg hskipped
  obtain ⟨col, needle, values, hop, hcol, hnot, hneedle, hvalues, rfl⟩ :=
    exists_of_valbitmapCheck hcheck
  refine ⟨bq, hbq, hop, needle, hneedle, ?_⟩
  intro hvalue
  -- the row covers the constant, so its bit is set where the list has it
  have hoccurs : seg.Occurs r.colIdx needle := hci ▸ occurs_of_hasValue hcol hnot hvalue
  obtain ⟨col', dict, hcol', hdict, hcover⟩ := h.covers r hr
  obtain ⟨hmem, hbit⟩ := hcover seg hseg hid.symm needle hoccurs
  have hstored : (storedColumns columns)[r.colIdx]? = some col := by
    rw [hci]
    exact getElem?_filter_before hcol (by simpa using hnot)
  rw [hstored, Option.some.injEq] at hcol'
  subst hcol'
  -- and the scan has the same list
  have hread := getColumnValmap_entriesOf hnames (fun name d hd => (h.listed name d hd).2) hplain
    hstored hvalues
  rw [hdict, Option.some.injEq] at hread
  subst hread
  rw [ValbitmapCheck.passes, idxOf?_eq_some hmem] at hfail
  simp [hbit] at hfail

/-- In every run that lists only printable ASCII values, in a table whose column names
can be told apart, the bitmaps are exact and the scan skips only segments without a
match. -/
theorem valbitmap_reached (hnames : NamesReadable columns) (ops : List (Op columns))
    (hvalues : Along step ValuesReadable (fresh columns) ops) :
    RowsCovered (reached columns ops) ∧ SkipsOnlyMismatches (reached columns ops) := by
  have hfresh : PlainValues columns (fresh columns).valmap := by
    intro ci col dict _ hdict
    rw [fresh, AList.lookup_empty] at hdict
    cases hdict
  have hrun := invariant_run
    (I := fun st : State columns =>
      Tracks st.segments st.valmap st.rows ∧ PlainValues columns st.valmap)
    (fun _ _ _ h hguard hstep =>
      ⟨tracks_step hnames.nodup h.1 hstep, plainValues_step hnames.nodup h.2 hguard hstep⟩)
    ⟨tracks_fresh, hfresh⟩ hvalues
  exact ⟨hrun.1.rowsCovered, hrun.1.skipsOnlyMismatches hnames hrun.2⟩

theorem plain_of_mem_collected {buffer : List BufferEntry}
    (h : ∀ e ∈ buffer, ∀ v ∈ e.values, Plain v) {ci : ℕ} {v : Text}
    (hv : v ∈ collected buffer ci) : Plain v := by
  obtain ⟨e, he, -, hv⟩ := mem_collected.mp hv
  exact h e he v hv

/-- A table with a time column and a text column. -/
def events : List ColumnMeta :=
  [⟨"ts".toList, .timestamptz, false, true⟩, ⟨"kind".toList, .text, false, false⟩]

def eventSegment (id : ℤ) (kind : Text) : SegmentData events :=
  ⟨id, [.int64 [some 0], .text [some kind]], [], rfl⟩

/-- The qual `kind = c`. -/
def kindIs (c : Text) : BatchQual := ⟨1, .eq, 0, .text, some c, none⟩

def eventRun : List (Op events) :=
  [.compress [eventSegment 1 "in".toList, eventSegment 2 "out".toList],
    .compact [eventSegment 3 "idle".toList], .removeSegments [1]]

theorem valbitmap_reached_events :
    (RowsCovered (reached events eventRun) ∧ SkipsOnlyMismatches (reached events eventRun)) ∧
      (survivingSegments (reached events eventRun) [kindIs "idle".toList]).map SegmentData.id =
        [3] := by
  refine ⟨valbitmap_reached ⟨by decide, by decide⟩ eventRun ⟨?_, ?_, trivial, trivial⟩, by decide⟩
  · intro _ ci _ v hv
    exact plain_of_mem_collected (by decide) hv
  · intro _ ci col existing _ _ _ _ v hv
    exact plain_of_mem_collected (by decide) hv

/-- The one segment, whose only row has the kind `é`, is skipped by `kind = 'é'`: the
list is read back with the two bytes of the character as two characters. -/
theorem nonAscii_skipped :
    eventSegment 1 ['é'] ∈ (reached events [.compress [eventSegment 1 ['é']]]).segments ∧
      (eventSegment 1 ['é']).HasValue 1 ['é'] ∧
      survivingSegments (reached events [.compress [eventSegment 1 ['é']]]) [kindIs ['é']] = [] ∧
      ¬ SkipsOnlyMismatches (reached events [.compress [eventSegment 1 ['é']]]) := by
  have hlive : eventSegment 1 ['é'] ∈
      (reached events [.compress [eventSegment 1 ['é']]]).segments := by decide
  have hvalue : (eventSegment 1 ['é']).HasValue 1 ['é'] := ⟨[some ['é']], rfl, by decide⟩
  have hskipped :
      survivingSegments (reached events [.compress [eventSegment 1 ['é']]]) [kindIs ['é']] = [] := by
    decide
  refine ⟨hlive, hvalue, hskipped, ?_⟩
  intro h
  obtain ⟨bq, hbq, -, c, hc, hno⟩ := h [kindIs ['é']] _ hlive (by simp [hskipped])
  rw [List.mem_singleton] at hbq
  subst hbq
  cases hc
  exact hno hvalue

end DeltaX.Partition.Valbitmap
