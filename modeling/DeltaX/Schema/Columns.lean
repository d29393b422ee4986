import DeltaX.Schema.InsertLiterals
import DeltaX.Support.Numbering
/-!
# Column changes after compression

A compressed partition remembers the columns it was written with in its
`compressed_columns` descriptor, while the parent table goes on changing.  This
module models the catalog side: the attributes of the parent, the descriptor,
the column changes that pass through transparently, and the two ways in which
a column is matched with the `_col_idx` its data was written under.
-/

namespace DeltaX.Schema

open Column Support.Numbering

/-! ## The catalog -/

/-- A row of `pg_attribute`.  `missing` is the value PostgreSQL supplies for rows
older than the column. -/
structure Attr where
  attnum : ℕ
  name : Text
  dataType : DataType
  typmod : ℤ
  dropped : Bool
  missing : Value
deriving DecidableEq, Repr

structure DescriptorEntry where
  attnum : ℕ
  name : Text
  dataType : DataType
  typmod : ℤ
  isSegmentBy : Bool
  compressedColIdx : Option ℕ
  dropped : Bool
deriving DecidableEq, Repr

structure Settings where
  timeColumn : Text
  segmentBy : List Text
  orderBy : List Text

/-- The parent's attributes and the descriptor of one compressed partition. -/
structure TableState where
  attrs : List Attr
  descriptor : List DescriptorEntry
deriving DecidableEq, Repr

/-- Attributes that are not dropped, in attnum order. -/
def liveAttrs (attrs : List Attr) : List Attr := attrs.filter fun a => !a.dropped

def Settings.isSegmentBy (s : Settings) (a : Attr) : Bool := decide (a.name ∈ s.segmentBy)

def Settings.stored (s : Settings) (a : Attr) : Bool := !s.isSegmentBy a

def entryOf (s : Settings) (a : Attr) (idx : Option ℕ) : DescriptorEntry where
  attnum := a.attnum
  name := a.name
  dataType := a.dataType
  typmod := a.typmod
  isSegmentBy := s.isSegmentBy a
  compressedColIdx := idx
  dropped := false

def snapshotCompressedColumns (s : Settings) (attrs : List Attr) : List DescriptorEntry :=
  List.zipWith (entryOf s) (liveAttrs attrs) (number s.stored 0 (liveAttrs attrs))

/-! ## Column changes -/

inductive ColumnChange
  | addColumn (name : Text) (dataType : DataType) (typmod : ℤ) (missing : Value)
  | dropColumn (name : Text)
deriving DecidableEq, Repr

/-- `DROP COLUMN` on the parent. -/
def dropAttr (name : Text) (a : Attr) : Attr :=
  if a.name = name then { a with dropped := true } else a

def tombstoneEntry (name : Text) (e : DescriptorEntry) : DescriptorEntry :=
  if e.name = name then { e with dropped := true } else e

/-- One supported change.  A new column needs a name that is free, a dropped one
must be there and must not be a key column. -/
def applyChange (s : Settings) (st : TableState) : ColumnChange → Option TableState
  | .addColumn name dataType typmod missing =>
      if name ∈ (liveAttrs st.attrs).map Attr.name then none
      else some
        { st with attrs := st.attrs ++ [⟨st.attrs.length + 1, name, dataType, typmod, false, missing⟩] }
  | .dropColumn name =>
      if name ∉ (liveAttrs st.attrs).map Attr.name ∨ name = s.timeColumn ∨ name ∈ s.segmentBy ∨
          name ∈ s.orderBy then none
      else some
        { attrs := st.attrs.map (dropAttr name)
          descriptor := st.descriptor.map (tombstoneEntry name) }

def applyChanges (s : Settings) (st : TableState) : List ColumnChange → Option TableState
  | [] => some st
  | change :: changes => do
      let st ← applyChange s st change
      applyChanges s st changes

/-! ## Matching columns with stored data -/

/-- `load_metadata` found a column under another type than it was written with. -/
inductive LoadError
  | typeDiffers (colName : Text) (live stored : DataType × ℤ)
deriving DecidableEq, Repr

/-- The `_col_idx` of a live column by its attnum in the descriptor: none for a
column that is not there, and none for a segment-by column. -/
def resolveBlob (entries : List DescriptorEntry) (a : Attr) : Except LoadError (Option ℕ) :=
  match entries.find? fun e => e.attnum = a.attnum with
  | none => .ok none
  | some e =>
      if e.dropped then .ok none
      else if e.dataType ≠ a.dataType ∨ e.typmod ≠ a.typmod then
        .error (.typeDiffers a.name (a.dataType, a.typmod) (e.dataType, e.typmod))
      else .ok e.compressedColIdx

/-- `load_metadata`'s `blob_idx` for the physical columns. -/
def loadBlobIdx (st : TableState) : Except LoadError (List (Option ℕ)) :=
  (liveAttrs st.attrs).mapM (resolveBlob st.descriptor)

/-- `decompress_partition_inner`'s `non_seg_cols`: live columns numbered by
position. -/
def nonSegCols (s : Settings) (st : TableState) : List (ℕ × Text × DataType) :=
  ((liveAttrs st.attrs).filter s.stored).mapIdx fun i a => (i, a.name, a.dataType)

/-! ## A table and its history -/

structure Table where
  attrs : List Attr
  attnum_eq : attrs.map Attr.attnum = List.range' 1 attrs.length
  names_nodup : ((liveAttrs attrs).map Attr.name).Nodup

def Table.compressed (t : Table) (s : Settings) : TableState where
  attrs := t.attrs
  descriptor := snapshotCompressedColumns s t.attrs

/-- The columns that were written with a blob, by `_col_idx`. -/
def Table.written (t : Table) (s : Settings) : List Attr := (liveAttrs t.attrs).filter s.stored

theorem getElem?_of_attnum {as : List Attr} (hnum : as.map Attr.attnum = List.range' 1 as.length)
    {a : Attr} (ha : a ∈ as) :
    1 ≤ a.attnum ∧ a.attnum ≤ as.length ∧ as[a.attnum - 1]? = some a := by
  obtain ⟨i, hi, rfl⟩ := List.getElem_of_mem ha
  have hget : (as.map Attr.attnum)[i]? = some (1 + i) := by
    rw [hnum, List.getElem?_range' hi]
    simp
  rw [List.getElem?_map, List.getElem?_eq_getElem hi, Option.map_some, Option.some.injEq] at hget
  rw [hget]
  refine ⟨by omega, by omega, ?_⟩
  rw [Nat.add_sub_cancel_left, List.getElem?_eq_getElem hi]

/-! ## What a history leaves

The attributes of the compressed table stay in place, some of them dropped, and
added columns follow them.  The descriptor says the same of its entries.
-/

def describedPairs (before now : List Attr) : List (Attr × Attr) :=
  (before.zip now).filter fun p => !p.1.dropped

/-- The written columns, each with what has become of it, by `_col_idx`. -/
def writtenPairs (s : Settings) (before now : List Attr) : List (Attr × Attr) :=
  (describedPairs before now).filter fun p => s.stored p.1

def descriptorOf (s : Settings) (before now : List Attr) : List DescriptorEntry :=
  ((describedPairs before now).zip
    (number (fun p => s.stored p.1) 0 (describedPairs before now))).map fun q =>
      { entryOf s q.1.1 q.2 with dropped := q.1.2.dropped }

/-- `b` is the attribute `a` later on. -/
structure SameColumn (a b : Attr) : Prop where
  attnum_eq : b.attnum = a.attnum
  name_eq : b.name = a.name
  dataType_eq : b.dataType = a.dataType
  typmod_eq : b.typmod = a.typmod
  dropped_of : a.dropped = true → b.dropped = true

structure DriftsTo (t : Table) (s : Settings) (st : TableState) (old added : List Attr) :
    Prop where
  attrs_eq : st.attrs = old ++ added
  length_eq : old.length = t.attrs.length
  same : ∀ p ∈ t.attrs.zip old, SameColumn p.1 p.2
  descriptor_eq : st.descriptor = descriptorOf s t.attrs old
  attnum_eq : st.attrs.map Attr.attnum = List.range' 1 st.attrs.length
  names_nodup : ((liveAttrs st.attrs).map Attr.name).Nodup

theorem liveAttrs_append (attrs attrs' : List Attr) :
    liveAttrs (attrs ++ attrs') = liveAttrs attrs ++ liveAttrs attrs' := by
  simp [liveAttrs]

theorem liveAttrs_map_dropAttr (name : Text) (attrs : List Attr) :
    liveAttrs (attrs.map (dropAttr name)) =
      (liveAttrs attrs).filter fun a => decide (a.name ≠ name) := by
  induction attrs with
  | nil => rfl
  | cons a attrs ih =>
      unfold liveAttrs at *
      by_cases hname : a.name = name
      · cases hdropped : a.dropped <;> simp_all [dropAttr]
      · cases hdropped : a.dropped <;> simp_all [dropAttr]

theorem dropAttr_attnum (name : Text) (a : Attr) : (dropAttr name a).attnum = a.attnum := by
  unfold dropAttr
  split <;> rfl

theorem SameColumn.dropAttr {a b : Attr} (h : SameColumn a b) (name : Text) :
    SameColumn a (dropAttr name b) := by
  obtain ⟨hattnum, hname, htype, htypmod, hdropped⟩ := h
  unfold Schema.dropAttr
  split
  · exact ⟨hattnum, hname, htype, htypmod, fun _ => rfl⟩
  · exact ⟨hattnum, hname, htype, htypmod, hdropped⟩

theorem descriptorOf_self (s : Settings) (attrs : List Attr) :
    descriptorOf s attrs attrs = snapshotCompressedColumns s attrs := by
  have hpairs : describedPairs attrs attrs = (liveAttrs attrs).map fun a => (a, a) := by
    unfold describedPairs liveAttrs
    induction attrs with
    | nil => rfl
    | cons a attrs ih => cases hdropped : a.dropped <;> simp_all
  unfold descriptorOf snapshotCompressedColumns
  rw [hpairs, number_map, List.zip_map_left, List.map_map, ← List.map_uncurry_zip_eq_zipWith]
  apply List.map_congr_left
  rintro ⟨a, idx⟩ hmem
  have hlive : a.dropped = false := by
    have := (List.of_mem_zip hmem).1
    simpa [liveAttrs] using (List.mem_filter.mp this).2
  simp [entryOf, hlive]

theorem descriptorOf_map_dropAttr (s : Settings) {before now : List Attr}
    (hsame : ∀ p ∈ before.zip now, SameColumn p.1 p.2) (name : Text) :
    descriptorOf s before (now.map (dropAttr name)) =
      (descriptorOf s before now).map (tombstoneEntry name) := by
  have hpairs : describedPairs before (now.map (dropAttr name)) =
      (describedPairs before now).map (Prod.map id (dropAttr name)) := by
    unfold describedPairs
    rw [List.zip_map_right, List.filter_map]
    rfl
  unfold descriptorOf
  rw [hpairs, number_map, List.zip_map_left, List.map_map, List.map_map]
  apply List.map_congr_left
  rintro ⟨⟨a, b⟩, idx⟩ hmem
  have hname : b.name = a.name := by
    have := (List.of_mem_zip hmem).1
    exact (hsame (a, b) (List.mem_filter.mp this).1).name_eq
  by_cases hdrop : a.name = name <;>
    simp [dropAttr, tombstoneEntry, entryOf, hname, hdrop, Prod.map]

theorem driftsTo_compressed (t : Table) (s : Settings) :
    DriftsTo t s (t.compressed s) t.attrs [] where
  attrs_eq := (List.append_nil _).symm
  length_eq := rfl
  same := by
    rintro ⟨a, b⟩ hmem
    obtain rfl : a = b := by
      obtain ⟨k, hk⟩ := List.mem_iff_getElem?.mp hmem
      obtain ⟨ha, hb⟩ := List.getElem?_zip_eq_some.mp hk
      exact Option.some.inj (ha.symm.trans hb)
    exact ⟨rfl, rfl, rfl, rfl, id⟩
  descriptor_eq := (descriptorOf_self s t.attrs).symm
  attnum_eq := t.attnum_eq
  names_nodup := t.names_nodup

theorem driftsTo_applyChange {t : Table} {s : Settings} {st st' : TableState}
    {old added : List Attr} (h : DriftsTo t s st old added) {change : ColumnChange}
    (hstep : applyChange s st change = some st') :
    ∃ old' added', DriftsTo t s st' old' added' := by
  cases change with
  | addColumn name dataType typmod missing =>
      simp only [applyChange] at hstep
      split at hstep
      · cases hstep
      · rename_i hfree
        cases hstep
        refine ⟨old, added ++ [⟨st.attrs.length + 1, name, dataType, typmod, false, missing⟩], ?_,
          h.length_eq, h.same, h.descriptor_eq, ?_, ?_⟩
        · simp [h.attrs_eq]
        · simp [h.attnum_eq, List.range'_concat, Nat.add_comm]
        · rw [liveAttrs_append, List.map_append, List.nodup_append]
          refine ⟨h.names_nodup, by simp [liveAttrs], ?_⟩
          intro n hn m hm heq
          have hmname : m = name := by simpa [liveAttrs] using hm
          exact hfree (hmname ▸ heq ▸ hn)
  | dropColumn name =>
      simp only [applyChange] at hstep
      split at hstep
      · cases hstep
      · cases hstep
        refine ⟨old.map (dropAttr name), added.map (dropAttr name), ?_, ?_, ?_, ?_, ?_, ?_⟩
        · simp [h.attrs_eq]
        · simpa using h.length_eq
        · intro p hp
          rw [List.zip_map_right] at hp
          obtain ⟨q, hq, rfl⟩ := List.mem_map.mp hp
          exact (h.same q hq).dropAttr name
        · rw [h.descriptor_eq, descriptorOf_map_dropAttr s h.same]
        · simp only [List.map_map, List.length_map]
          rw [← h.attnum_eq]
          exact List.map_congr_left fun a _ => dropAttr_attnum name a
        · rw [liveAttrs_map_dropAttr]
          exact h.names_nodup.sublist (List.filter_sublist.map _)

/-- Every history keeps the shape. -/
theorem driftsTo_applyChanges {t : Table} {s : Settings} {st st' : TableState}
    {old added : List Attr} (h : DriftsTo t s st old added) {changes : List ColumnChange}
    (hrun : applyChanges s st changes = some st') :
    ∃ old' added', DriftsTo t s st' old' added' := by
  induction changes generalizing st old added with
  | nil =>
      cases hrun
      exact ⟨old, added, h⟩
  | cons change changes ih =>
      obtain ⟨st₁, hstep, hrest⟩ := Option.bind_eq_some_iff.mp hrun
      obtain ⟨old₁, added₁, h₁⟩ := driftsTo_applyChange h hstep
      exact ih h₁ hrest

/-! ## A small table -/

/-- A time column and two integers. -/
def readings : Table where
  attrs :=
    [⟨1, "ts".toList, .timestamptz, -1, false, none⟩, ⟨2, "a".toList, .integer, -1, false, none⟩,
      ⟨3, "b".toList, .integer, -1, false, none⟩]
  attnum_eq := rfl
  names_nodup := by decide

def readingsSettings : Settings where
  timeColumn := "ts".toList
  segmentBy := []
  orderBy := []

def readingsAfter (changes : List ColumnChange) : TableState :=
  (applyChanges readingsSettings (readings.compressed readingsSettings) changes).getD ⟨[], []⟩

end DeltaX.Schema
