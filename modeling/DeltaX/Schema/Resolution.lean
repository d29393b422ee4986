import DeltaX.Schema.Columns
import DeltaX.Support.ListLookup
/-!
# The two column numberings after a history

The scan side resolves a live column by attnum in the descriptor and always
arrives at the index the column was written under.  The restore side numbers
the live columns by position: first the survivors, then the added columns.
-/

namespace DeltaX.Schema

open Column Support.Numbering Support.ListLookup

variable {t : Table} {s : Settings} {st : TableState} {old added : List Attr}

/-- Live columns with a blob of their own, as the restore side counts them. -/
def storedLive (s : Settings) (st : TableState) : List Attr := (liveAttrs st.attrs).filter s.stored

/-- No dropped column with a blob stands before a surviving one. -/
def KeepsPlaces (descriptor : List DescriptorEntry) : Prop :=
  (descriptor.filter fun e => e.compressedColIdx.isSome).Pairwise fun e e' =>
    e.dropped = true → e'.dropped = true

instance (descriptor : List DescriptorEntry) : Decidable (KeepsPlaces descriptor) :=
  inferInstanceAs (Decidable (List.Pairwise _ _))

/-- The index `resolveBlob` arrives at, when it does. -/
def blobOf (descriptor : List DescriptorEntry) (a : Attr) : Option ℕ :=
  match resolveBlob descriptor a with
  | .ok idx => idx
  | .error _ => none

namespace DriftsTo

theorem attnum_nodup (h : DriftsTo t s st old added) : (st.attrs.map Attr.attnum).Nodup := by
  rw [h.attnum_eq]
  exact List.nodup_range'

theorem attr_eq_of_attnum (h : DriftsTo t s st old added) {a b : Attr} (ha : a ∈ st.attrs)
    (hb : b ∈ st.attrs) (heq : a.attnum = b.attnum) : a = b :=
  List.inj_on_of_nodup_map h.attnum_nodup ha hb heq

theorem mem_of_mem_live {a : Attr} (ha : a ∈ liveAttrs st.attrs) : a ∈ st.attrs :=
  (List.mem_filter.mp ha).1

theorem map_snd_zip (h : DriftsTo t s st old added) : (t.attrs.zip old).map Prod.snd = old :=
  List.map_snd_zip (Nat.le_of_eq h.length_eq)

theorem map_fst_zip (h : DriftsTo t s st old added) :
    (t.attrs.zip old).map Prod.fst = t.attrs :=
  List.map_fst_zip (Nat.le_of_eq h.length_eq.symm)

theorem mem_old_of_mem_zip {p : Attr × Attr} (hp : p ∈ t.attrs.zip old) : p.2 ∈ old :=
  (List.of_mem_zip hp).2

theorem nodup_attnum_zip (h : DriftsTo t s st old added) :
    ((t.attrs.zip old).map (Attr.attnum ∘ Prod.fst)).Nodup := by
  rw [← List.map_map, h.map_fst_zip, t.attnum_eq]
  exact List.nodup_range'

theorem pair_eq_of_attnum (h : DriftsTo t s st old added) {p q : Attr × Attr}
    (hp : p ∈ t.attrs.zip old) (hq : q ∈ t.attrs.zip old) (heq : p.1.attnum = q.1.attnum) :
    p = q :=
  List.inj_on_of_nodup_map h.nodup_attnum_zip hp hq heq

theorem nodup_writtenPairs (h : DriftsTo t s st old added) :
    (writtenPairs s t.attrs old).Nodup :=
  (List.Nodup.of_map _ h.nodup_attnum_zip).sublist
    (List.filter_sublist.trans List.filter_sublist)

theorem mem_describedPairs {p : Attr × Attr} :
    p ∈ describedPairs t.attrs old ↔ p ∈ t.attrs.zip old ∧ p.1.dropped = false := by
  simp [describedPairs]

theorem mem_writtenPairs {p : Attr × Attr} :
    p ∈ writtenPairs s t.attrs old ↔
      p ∈ t.attrs.zip old ∧ p.1.dropped = false ∧ s.stored p.1 = true := by
  simp only [writtenPairs, describedPairs, List.mem_filter, Bool.not_eq_true', and_assoc]

theorem stored_eq (h : DriftsTo t s st old added) {p : Attr × Attr}
    (hp : p ∈ t.attrs.zip old) : s.stored p.2 = s.stored p.1 := by
  simp [Settings.stored, Settings.isSegmentBy, (h.same p hp).name_eq]

/-- The entry of a described column carries its index among the written ones. -/
theorem entry_mem (h : DriftsTo t s st old added) {p : Attr × Attr}
    (hp : p ∈ describedPairs t.attrs old) :
    ∃ idx, { entryOf s p.1 idx with dropped := p.2.dropped } ∈ st.descriptor ∧
      ∀ w, idx = some w ↔ (writtenPairs s t.attrs old)[w]? = some p := by
  obtain ⟨k, hk⟩ := List.mem_iff_getElem?.mp hp
  have hnum := getElem?_number (p := fun p : Attr × Attr => s.stored p.1) 0
    (describedPairs t.attrs old) k
  rw [hk, Option.map_some, Nat.zero_add] at hnum
  refine ⟨if s.stored p.1 = true then
      some (before (fun p : Attr × Attr => s.stored p.1) (describedPairs t.attrs old) k) else none,
    ?_, ?_⟩
  · rw [h.descriptor_eq, descriptorOf, List.mem_map]
    refine ⟨(p, _), ?_, rfl⟩
    exact List.mem_of_getElem? (List.getElem?_zip_eq_some.mpr ⟨hk, hnum⟩)
  · intro w
    by_cases hstored : s.stored p.1 = true
    · have hplace := getElem?_filter_before (p := fun p : Attr × Attr => s.stored p.1) hk hstored
      rw [if_pos hstored, Option.some.injEq]
      constructor
      · rintro rfl
        exact hplace
      · intro hw
        have hlt := (List.getElem?_eq_some_iff.mp hplace).1
        refine (List.getElem?_inj hlt h.nodup_writtenPairs).mp ?_
        exact hplace.trans hw.symm
    · rw [if_neg hstored]
      apply iff_of_false (by simp)
      intro hw
      exact hstored (mem_writtenPairs.mp (List.mem_of_getElem? hw)).2.2

theorem attnum_of_mem_descriptor (h : DriftsTo t s st old added) {e : DescriptorEntry}
    (he : e ∈ st.descriptor) : ∃ p ∈ describedPairs t.attrs old, e.attnum = p.1.attnum := by
  rw [h.descriptor_eq, descriptorOf] at he
  obtain ⟨q, hq, rfl⟩ := List.mem_map.mp he
  exact ⟨q.1, (List.of_mem_zip hq).1, rfl⟩

theorem descriptor_attnum_nodup (h : DriftsTo t s st old added) :
    (st.descriptor.map DescriptorEntry.attnum).Nodup := by
  have hattnum : st.descriptor.map DescriptorEntry.attnum =
      (describedPairs t.attrs old).map (Attr.attnum ∘ Prod.fst) := by
    rw [h.descriptor_eq, descriptorOf, List.map_map]
    have hfst : ((describedPairs t.attrs old).zip
        (number (fun p => s.stored p.1) 0 (describedPairs t.attrs old))).map Prod.fst =
          describedPairs t.attrs old :=
      List.map_fst_zip (by simp)
    calc _ = (((describedPairs t.attrs old).zip
          (number (fun p => s.stored p.1) 0 (describedPairs t.attrs old))).map Prod.fst).map
            (Attr.attnum ∘ Prod.fst) := by
          rw [List.map_map]
          rfl
      _ = _ := by rw [hfst]
  rw [hattnum]
  exact h.nodup_attnum_zip.sublist (List.filter_sublist.map _)

theorem find?_entry (h : DriftsTo t s st old added) {e : DescriptorEntry}
    (he : e ∈ st.descriptor) :
    (st.descriptor.find? fun e' => e'.attnum = e.attnum) = some e :=
  find?_key DescriptorEntry.attnum h.descriptor_attnum_nodup he

theorem live_cases (h : DriftsTo t s st old added) {a : Attr} (ha : a ∈ liveAttrs st.attrs) :
    (∃ p ∈ describedPairs t.attrs old, p.2 = a) ∨ a ∈ liveAttrs added := by
  rw [h.attrs_eq, liveAttrs_append, List.mem_append] at ha
  rcases ha with ha | ha
  · left
    obtain ⟨hmem, hlive⟩ := List.mem_filter.mp ha
    rw [← h.map_snd_zip, List.mem_map] at hmem
    obtain ⟨p, hp, rfl⟩ := hmem
    refine ⟨p, mem_describedPairs.mpr ⟨hp, ?_⟩, rfl⟩
    by_contra hdropped
    have := (h.same p hp).dropped_of (by simpa using hdropped)
    simp [this] at hlive
  · exact .inr ha

theorem attnum_added (h : DriftsTo t s st old added) {a : Attr} (ha : a ∈ added)
    {b : Attr} (hb : b ∈ t.attrs) : a.attnum ≠ b.attnum := by
  intro heq
  have hb' : b.attnum ∈ old.map Attr.attnum := by
    rw [← h.map_snd_zip, List.map_map]
    rw [← h.map_fst_zip] at hb
    obtain ⟨p, hp, rfl⟩ := List.mem_map.mp hb
    exact List.mem_map.mpr ⟨p, hp, (h.same p hp).attnum_eq⟩
  have hnodup := h.attnum_nodup
  rw [h.attrs_eq, List.map_append, List.nodup_append] at hnodup
  exact hnodup.2.2 _ hb' _ (List.mem_map_of_mem ha) heq.symm

theorem not_described_of_added (h : DriftsTo t s st old added) {a : Attr}
    (ha : a ∈ liveAttrs added) : ∀ e ∈ st.descriptor, e.attnum ≠ a.attnum := by
  intro e he heq
  obtain ⟨p, hp, hattnum⟩ := h.attnum_of_mem_descriptor he
  have hp1 : p.1 ∈ t.attrs := (List.of_mem_zip (mem_describedPairs.mp hp).1).1
  exact h.attnum_added (List.mem_filter.mp ha).1 hp1 (heq.symm.trans hattnum)

theorem resolveBlob_added (h : DriftsTo t s st old added) {a : Attr} (ha : a ∈ liveAttrs added) :
    resolveBlob st.descriptor a = .ok none := by
  have hnone : (st.descriptor.find? fun e => e.attnum = a.attnum) = none := by
    rw [List.find?_eq_none]
    intro e he
    simpa using h.not_described_of_added ha e he
  rw [resolveBlob, hnone]

/-- A surviving column resolves without an error, and to the index it was written
under. -/
theorem resolveBlob_survivor (h : DriftsTo t s st old added) {p : Attr × Attr}
    (hp : p ∈ describedPairs t.attrs old) (hlive : p.2.dropped = false) :
    ∃ idx, resolveBlob st.descriptor p.2 = .ok idx ∧
      ∀ w, idx = some w ↔ (writtenPairs s t.attrs old)[w]? = some p := by
  obtain ⟨idx, hmem, hidx⟩ := h.entry_mem hp
  have hsame := h.same p (mem_describedPairs.mp hp).1
  refine ⟨idx, ?_, hidx⟩
  have hfind := h.find?_entry hmem
  simp only [entryOf, ← hsame.attnum_eq] at hfind
  simp [resolveBlob, hfind, hlive, hsame.dataType_eq, hsame.typmod_eq]

theorem snd_ne_added (h : DriftsTo t s st old added) {p : Attr × Attr}
    (hp : p ∈ t.attrs.zip old) {a : Attr} (ha : a ∈ added) : p.2 ≠ a := by
  rintro rfl
  exact h.attnum_added ha (List.of_mem_zip hp).1 (h.same p hp).attnum_eq

/-- `load_metadata` resolves every live column to the index it was written under. -/
theorem blobOf_eq_some_iff (h : DriftsTo t s st old added) {a : Attr}
    (ha : a ∈ liveAttrs st.attrs) (w : ℕ) :
    blobOf st.descriptor a = some w ↔
      ∃ p, (writtenPairs s t.attrs old)[w]? = some p ∧ p.2 = a := by
  have hzip : ∀ p, (writtenPairs s t.attrs old)[w]? = some p → p ∈ t.attrs.zip old :=
    fun p hp => (mem_writtenPairs.mp (List.mem_of_getElem? hp)).1
  rcases h.live_cases ha with ⟨p, hp, rfl⟩ | hadded
  · have hlive : p.2.dropped = false := by simpa using (List.mem_filter.mp ha).2
    obtain ⟨idx, hresolve, hidx⟩ := h.resolveBlob_survivor hp hlive
    have hblob : blobOf st.descriptor p.2 = idx := by rw [blobOf, hresolve]
    rw [hblob, hidx]
    constructor
    · intro hw
      exact ⟨p, hw, rfl⟩
    · rintro ⟨q, hw, heq⟩
      have hpzip := (mem_describedPairs.mp hp).1
      have hattnum : q.1.attnum = p.1.attnum := by
        rw [← (h.same q (hzip q hw)).attnum_eq, heq, (h.same p hpzip).attnum_eq]
      rw [hw, h.pair_eq_of_attnum (hzip q hw) hpzip hattnum]
  · have hblob : blobOf st.descriptor a = none := by rw [blobOf, h.resolveBlob_added hadded]
    rw [hblob]
    apply iff_of_false (by simp)
    rintro ⟨p, hw, heq⟩
    exact h.snd_ne_added (hzip p hw) (List.mem_filter.mp hadded).1 heq

theorem loadBlobIdx_eq (h : DriftsTo t s st old added) :
    loadBlobIdx st = .ok ((liveAttrs st.attrs).map (blobOf st.descriptor)) := by
  apply mapM_eq_pure
  intro a ha
  rcases h.live_cases ha with ⟨p, hp, rfl⟩ | hadded
  · have hlive : p.2.dropped = false := by simpa using (List.mem_filter.mp ha).2
    obtain ⟨idx, hresolve, -⟩ := h.resolveBlob_survivor hp hlive
    rw [blobOf, hresolve]
    rfl
  · rw [blobOf, h.resolveBlob_added hadded]
    rfl

/-- The columns with a blob are those that were live at compression. -/
theorem written_eq (h : DriftsTo t s st old added) :
    t.written s = (writtenPairs s t.attrs old).map Prod.fst := by
  rw [Table.written, liveAttrs, writtenPairs, describedPairs, ← h.map_fst_zip, List.filter_map,
    List.filter_map, h.map_fst_zip]
  rfl

/-- The survivors come first, the added columns after them. -/
theorem storedLive_eq (h : DriftsTo t s st old added) :
    storedLive s st =
      ((writtenPairs s t.attrs old).filter fun p => !p.2.dropped).map Prod.snd ++
        (liveAttrs added).filter s.stored := by
  have hsurvivors : (liveAttrs old).filter s.stored =
      ((writtenPairs s t.attrs old).filter fun p => !p.2.dropped).map Prod.snd := by
    conv_lhs => rw [← h.map_snd_zip]
    unfold liveAttrs writtenPairs describedPairs
    rw [List.filter_filter, List.filter_map, List.filter_filter, List.filter_filter]
    congr 1
    apply List.filter_congr
    intro p hp
    have hstored := h.stored_eq (s := s) hp
    have hdropped := (h.same p hp).dropped_of
    cases h1 : p.1.dropped <;> cases h2 : p.2.dropped <;> simp_all
  rw [storedLive, h.attrs_eq, liveAttrs_append, List.filter_append, hsurvivors]

theorem nodup_storedLive (h : DriftsTo t s st old added) :
    ((storedLive s st).map Attr.name).Nodup :=
  h.names_nodup.sublist (List.filter_sublist.map _)

/-- Where a surviving column now stands among the live ones. -/
theorem getElem?_storedLive (h : DriftsTo t s st old added) {w : ℕ} {p : Attr × Attr}
    (hw : (writtenPairs s t.attrs old)[w]? = some p) (hlive : p.2.dropped = false) :
    (storedLive s st)[before (fun p : Attr × Attr => !p.2.dropped)
      (writtenPairs s t.attrs old) w]? = some p.2 := by
  have hplace := getElem?_filter_before (p := fun p : Attr × Attr => !p.2.dropped) hw
    (by simp [hlive])
  have hlt := (List.getElem?_eq_some_iff.mp hplace).1
  rw [h.storedLive_eq, List.getElem?_append_left (by simpa using hlt), List.getElem?_map, hplace]
  rfl

theorem keepsPlaces_iff_pairwise (h : DriftsTo t s st old added) :
    KeepsPlaces st.descriptor ↔
      (writtenPairs s t.attrs old).Pairwise fun p q =>
        (!p.2.dropped) = false → (!q.2.dropped) = false := by
  have hpairs := filter_isSome_zip_number (p := fun p : Attr × Attr => s.stored p.1) 0
    (describedPairs t.attrs old)
  rw [KeepsPlaces, h.descriptor_eq, descriptorOf, List.filter_map, List.pairwise_map, writtenPairs,
    ← hpairs, List.pairwise_map]
  simp [entryOf, Function.comp_def]

/-- The survivors stand at the indexes they were written under exactly when no
dropped column precedes one of them. -/
theorem keepsPlaces_iff (h : DriftsTo t s st old added) :
    KeepsPlaces st.descriptor ↔
      ∀ (w : ℕ) (p : Attr × Attr), (writtenPairs s t.attrs old)[w]? = some p →
        p.2.dropped = false →
        (storedLive s st)[w]? = some p.2 := by
  rw [h.keepsPlaces_iff_pairwise, ← forall_before_eq_iff]
  constructor
  · intro hplaces w p hw hlive
    have hnow := h.getElem?_storedLive hw hlive
    rwa [hplaces w p hw (by simp [hlive])] at hnow
  · intro hplaces w p hw hlive
    have hlive : p.2.dropped = false := by simpa using hlive
    have hnow := h.getElem?_storedLive hw hlive
    have hthen := hplaces w p hw hlive
    have hnodup : (storedLive s st).Nodup := List.Nodup.of_map _ h.nodup_storedLive
    have hlt := (List.getElem?_eq_some_iff.mp hnow).1
    exact (List.getElem?_inj hlt hnodup).mp (hnow.trans hthen.symm)

end DriftsTo

end DeltaX.Schema
