import DeltaX.Codec.Dictionary
import DeltaX.Support.ListLookup
/-!
# The rows of a dictionary column

Every reader returns, row by row, the strings that were written, from either writer.  The plain
readers carry entry offsets of any size; the flat readers and the compressed writer carry 32-bit
ones.
-/

namespace DeltaX.Codec.Dictionary

open Support.LittleEndian Support.ByteSlices Support.Utf8 Support.ListLookup

/-! ## Distinct entries -/

theorem mem_addUnique {uniq : List Str} {u v : Str} :
    u ∈ addUnique uniq v ↔ u ∈ uniq ∨ u = v := by
  unfold addUnique
  by_cases h : v ∈ uniq
  · rw [if_pos h]
    exact ⟨Or.inl, fun hu => hu.elim id fun heq => heq ▸ h⟩
  · rw [if_neg h, List.mem_append, List.mem_singleton]

theorem nodup_addUnique {uniq : List Str} (h : uniq.Nodup) (v : Str) :
    (addUnique uniq v).Nodup := by
  unfold addUnique
  by_cases hv : v ∈ uniq
  · rwa [if_pos hv]
  · rw [if_neg hv]
    exact h.append (List.nodup_singleton v) fun u hu hsame =>
      hv (List.mem_singleton.mp hsame ▸ hu)

theorem mem_foldl_addUnique (values uniq : List Str) (u : Str) :
    u ∈ values.foldl addUnique uniq ↔ u ∈ uniq ∨ u ∈ values := by
  induction values generalizing uniq with
  | nil => simp
  | cons v values ih =>
      rw [List.foldl_cons, ih, mem_addUnique, List.mem_cons, or_assoc]

theorem nodup_foldl_addUnique (values : List Str) {uniq : List Str} (h : uniq.Nodup) :
    (values.foldl addUnique uniq).Nodup := by
  induction values generalizing uniq with
  | nil => exact h
  | cons v values ih => exact ih (nodup_addUnique h v)

theorem mem_dictEntries (values : List Str) (u : Str) : u ∈ dictEntries values ↔ u ∈ values := by
  rw [dictEntries, mem_foldl_addUnique]
  simp

theorem nodup_dictEntries (values : List Str) : (dictEntries values).Nodup :=
  nodup_foldl_addUnique values List.nodup_nil

theorem eq_foldl_of_collectUnique (values : List Str) {uniq entries : List Str}
    (h : collectUnique uniq values = some entries) : entries = values.foldl addUnique uniq := by
  induction values generalizing uniq with
  | nil => exact (Option.some.inj h).symm
  | cons v values ih =>
      rw [collectUnique] at h
      by_cases hmany : 65535 < (addUnique uniq v).length
      · rw [if_pos hmany] at h
        exact absurd h (by simp)
      · rw [if_neg hmany] at h
        exact ih h

/-- An accepted column has an index for every entry, below the sentinel. -/
theorem length_dictEntries {values : List Str} (h : shouldUseDictionary values = true) :
    (dictEntries values).length ≤ 65535 := by
  by_cases hempty : values = []
  · subst hempty
    exact Nat.zero_le _
  · rw [shouldUseDictionary, if_neg hempty] at h
    cases hcollect : collectUnique [] values with
    | none =>
        rw [hcollect] at h
        exact absurd h Bool.false_ne_true
    | some entries =>
        rw [hcollect, Bool.and_eq_true, decide_eq_true_eq] at h
        rw [dictEntries, ← eq_foldl_of_collectUnique values hcollect]
        omega

theorem perm_sortEntries (entries : List Str) : (sortEntries entries).Perm entries :=
  List.mergeSort_perm entries _

/-! ## The format -/

structure Covers (entries values : List Str) : Prop where
  nodup : entries.Nodup
  small : entries.length ≤ 65535
  short : ∀ e ∈ entries, e.length < 2 ^ 32
  mem : ∀ v ∈ values, v ∈ entries

def entriesBlob (entries : List Str) : List UInt8 := entries.flatMap writeEntry

def indicesOf (entries values : List Str) : List ℕ := values.map entries.idxOf

def writeIndices (width : ℕ) (indices : List ℕ) : List UInt8 := indices.flatMap (writeIndex width)

/-- What both writers' columns read as, once the entries are plain. -/
def emit (entries values : List Str) : List UInt8 :=
  writeHeader entries ++
    (entriesBlob entries ++
      writeIndices (indexWidth entries.length) (indicesOf entries values))

theorem covers_dictEntries {values : List Str} (h : shouldUseDictionary values = true)
    (hshort : ∀ v ∈ values, v.length < 2 ^ 32) : Covers (dictEntries values) values where
  nodup := nodup_dictEntries values
  small := length_dictEntries h
  short e he := hshort e ((mem_dictEntries values e).mp he)
  mem v hv := (mem_dictEntries values v).mpr hv

theorem Covers.perm {entries sorted values : List Str} (h : Covers entries values)
    (hperm : sorted.Perm entries) : Covers sorted values where
  nodup := hperm.nodup_iff.mpr h.nodup
  small := hperm.length_eq ▸ h.small
  short e he := h.short e (hperm.mem_iff.mp he)
  mem v hv := hperm.mem_iff.mpr (h.mem v hv)

theorem Covers.idxOf_lt {entries values : List Str} (h : Covers entries values) {v : Str}
    (hv : v ∈ values) : entries.idxOf v < entries.length :=
  List.idxOf_lt_length_iff.mpr (h.mem v hv)

theorem idxOf_mod {entries values : List Str} (h : Covers entries values) {v : Str}
    (hv : v ∈ values) : entries.idxOf v % 65536 = entries.idxOf v := by
  have hlt := h.idxOf_lt hv
  have hsmall := h.small
  exact Nat.mod_eq_of_lt (by omega)

theorem flatMap_writeIndex (width : ℕ) (entries values : List Str) :
    (values.flatMap fun v => writeIndex width (entries.idxOf v)) =
      writeIndices width (indicesOf entries values) := by
  rw [writeIndices, indicesOf, List.flatMap_map]

theorem encode_eq_emit {values : List Str} (h : shouldUseDictionary values = true)
    (hshort : ∀ v ∈ values, v.length < 2 ^ 32) :
    encode values = emit (dictEntries values) values := by
  by_cases hempty : values = []
  · subst hempty
    rfl
  · have hcovers := covers_dictEntries h hshort
    have hindices : (values.flatMap fun v => writeIndex
          (indexWidth (dictEntries values).length) ((dictEntries values).idxOf v % 65536)) =
        values.flatMap fun v => writeIndex (indexWidth (dictEntries values).length)
          ((dictEntries values).idxOf v) := by
      apply List.flatMap_congr
      intro v hv
      rw [idxOf_mod hcovers hv]
    rw [encode, if_neg hempty, emit, List.append_assoc]
    simp only [hindices, flatMap_writeIndex]
    rfl

/-- The remapped index is the entry's place in the sorted dictionary. -/
theorem getD_remapOf {entries sorted values : List Str} (h : Covers entries values)
    (hsorted : Covers sorted values) {v : Str} (hv : v ∈ values) :
    (remapOf entries sorted).getD (entries.idxOf v % 65536) 0 = sorted.idxOf v := by
  have hlt := h.idxOf_lt hv
  rw [idxOf_mod h hv, remapOf, List.getD_eq_getElem?_getD, List.getElem?_map,
    List.getElem?_idxOf (h.mem v hv), Option.map_some, Option.getD_some, idxOf_mod hsorted hv]

/-! ## Reading the format -/

theorem indexWidth_cases (n : ℕ) : n ≤ 255 ∧ indexWidth n = 1 ∨ 255 < n ∧ indexWidth n = 2 := by
  unfold indexWidth
  by_cases h : n ≤ 255
  · exact Or.inl ⟨h, if_pos h⟩
  · exact Or.inr ⟨by omega, if_neg h⟩

def Fits (width idx : ℕ) : Prop := width = 1 ∧ idx < 256 ∨ width = 2 ∧ idx < 65536

theorem fits_of_lt {n idx : ℕ} (hn : n ≤ 65535) (hidx : idx < n) : Fits (indexWidth n) idx := by
  cases indexWidth_cases n with
  | inl h => exact Or.inl ⟨h.2, by omega⟩
  | inr h => exact Or.inr ⟨h.2, by omega⟩

theorem length_writeIndex {width idx : ℕ} (h : Fits width idx) :
    (writeIndex width idx).length = width := by
  cases h with
  | inl hone => rw [writeIndex, if_pos hone.1, hone.1]; rfl
  | inr htwo => rw [writeIndex, if_neg (by omega), length_toLe, htwo.1]

theorem length_writeIndices {width : ℕ} {indices : List ℕ} (h : ∀ idx ∈ indices, Fits width idx) :
    (writeIndices width indices).length = indices.length * width := by
  induction indices with
  | nil => rw [writeIndices, List.flatMap_nil, List.length_nil, List.length_nil, Nat.zero_mul]
  | cons idx indices ih =>
      have htail := ih fun i hi => h i (List.mem_cons_of_mem idx hi)
      rw [writeIndices] at htail ⊢
      rw [List.flatMap_cons, List.length_append, htail,
        length_writeIndex (h idx List.mem_cons_self), List.length_cons, Nat.add_mul,
        Nat.one_mul, Nat.add_comm]

theorem readIndex_spec {data rest : List UInt8} {start width row idx : ℕ} (h : Fits width idx)
    (hat : At data (start + row * width) (writeIndex width idx ++ rest)) :
    readIndex data start width row = some idx := by
  cases h with
  | inl hone =>
      obtain ⟨rfl, hlt⟩ := hone
      rw [writeIndex, if_pos rfl] at hat
      rw [readIndex, if_pos rfl, hat.get, Option.map_some]
      congr 1
      exact UInt8.toNat_ofNat_of_lt' hlt
  | inr htwo =>
      obtain ⟨rfl, hlt⟩ := htwo
      rw [writeIndex, if_neg (by decide)] at hat
      rw [readIndex, if_neg (by decide)]
      exact hat.leAt hlt

theorem readIndices_spec {data : List UInt8} {start width : ℕ} {indices : List ℕ}
    (h : ∀ idx ∈ indices, Fits width idx) (hat : At data start (writeIndices width indices)) :
    readIndices data start width indices.length = some indices := by
  apply mapM_range
  intro row idx hrow
  obtain ⟨hlt, hget⟩ := List.getElem?_eq_some_iff.mp hrow
  have hsplit : writeIndices width indices = writeIndices width (indices.take row) ++
      (writeIndex width idx ++ writeIndices width (indices.drop (row + 1))) := by
    rw [writeIndices, writeIndices, writeIndices, ← List.flatMap_cons, ← hget,
      ← List.drop_eq_getElem_cons hlt, ← List.flatMap_append, List.take_append_drop]
  have hbefore : (writeIndices width (indices.take row)).length = row * width := by
    rw [length_writeIndices fun i hi => h i (List.mem_of_mem_take hi), List.length_take,
      Nat.min_eq_left hlt.le]
  rw [hsplit] at hat
  have hskip := hat.skip
  rw [hbefore] at hskip
  exact readIndex_spec (h idx (List.mem_of_getElem? hrow)) hskip

theorem entriesBlob_cons (e : Str) (entries : List Str) :
    entriesBlob (e :: entries) = toLe 4 e.length ++ (e ++ entriesBlob entries) := by
  rw [entriesBlob, List.flatMap_cons, writeEntry, List.append_assoc]
  rfl

theorem parseEntries_spec {α : Type} {view : Str → Option α} {g : Str → α}
    {data rest : List UInt8} (entries : List Str) (offset : ℕ)
    (hshort : ∀ e ∈ entries, e.length < 2 ^ 32) (hview : ∀ e ∈ entries, view e = some (g e))
    (hat : At data offset (entriesBlob entries ++ rest)) :
    parseEntries view data entries.length offset =
      some (entries.map g, offset + (entriesBlob entries).length) := by
  induction entries generalizing offset with
  | nil => rfl
  | cons e entries ih =>
      rw [entriesBlob_cons, List.append_assoc, List.append_assoc] at hat
      have hlen := hat.leAt (hshort e List.mem_cons_self)
      have hbody := hat.skip
      rw [length_toLe] at hbody
      have hslice := hbody.slice
      have hrest := ih (offset + 4 + e.length)
        (fun u hu => hshort u (List.mem_cons_of_mem e hu))
        (fun u hu => hview u (List.mem_cons_of_mem e hu)) hbody.skip
      simp only [List.length_cons, parseEntries, hlen, bind, Option.bind, hslice,
        hview e List.mem_cons_self, hrest]
      rw [entriesBlob_cons, List.length_append, List.length_append, length_toLe, List.map_cons]
      show some (_, _) = some (_, _)
      congr 2
      omega

theorem length_writeHeader (entries : List Str) : (writeHeader entries).length = 7 := by
  rw [writeHeader, List.length_append, length_toLe, List.length_cons, length_toLe]

theorem emptyStringIdx_lt (entries : List Str) : emptyStringIdx entries < 65536 := by
  unfold emptyStringIdx
  cases entries.findIdx? List.isEmpty with
  | none => exact Nat.lt_succ_self 65535
  | some i => exact Nat.mod_lt i (by decide)

theorem sliceHeader (entries : List Str) {data : List UInt8} (rest : List UInt8)
    (hdata : data = writeHeader entries ++ rest) :
    slice data 0 4 = some (toLe 4 entries.length) ∧
      slice data 5 7 = some (toLe 2 (emptyStringIdx entries)) := by
  have hat : At data 0 (toLe 4 entries.length ++
      ([UInt8.ofNat (indexWidth entries.length)] ++
        (toLe 2 (emptyStringIdx entries) ++ rest))) := by
    rw [hdata, writeHeader, List.append_assoc]
    exact at_zero _
  have hwidth := hat.skip
  have hsize := hat.slice
  have hempty := hwidth.skip.slice
  rw [length_toLe] at hsize hempty
  rw [length_toLe] at hempty
  exact ⟨hsize, hempty⟩

theorem readHeader {entries : List Str} (hsmall : entries.length ≤ 65535) {data : List UInt8}
    (rest : List UInt8) (hdata : data = writeHeader entries ++ rest) :
    leAt 4 data 0 = some entries.length ∧
      data[4]? = some (UInt8.ofNat (indexWidth entries.length)) ∧
      leAt 2 data 5 = some (emptyStringIdx entries) ∧ At data 7 rest := by
  have hrest : At data 7 rest := by
    rw [hdata, ← length_writeHeader entries]
    exact at_append _ _
  have hat : At data 0 (toLe 4 entries.length ++
      ([UInt8.ofNat (indexWidth entries.length)] ++
        (toLe 2 (emptyStringIdx entries) ++ rest))) := by
    rw [hdata, writeHeader, List.append_assoc]
    exact at_zero _
  have hwidth := hat.skip
  rw [length_toLe] at hwidth
  have hempty := hwidth.skip
  exact ⟨hat.leAt (by omega), hwidth.get, hempty.leAt (emptyStringIdx_lt entries), hrest⟩

theorem toNat_indexWidth (n : ℕ) : (UInt8.ofNat (indexWidth n)).toNat = indexWidth n := by
  apply UInt8.toNat_ofNat_of_lt'
  cases indexWidth_cases n with
  | inl h => rw [h.2]; decide
  | inr h => rw [h.2]; decide

/-! ## The plain readers -/

theorem fits_indicesOf {entries values : List Str} (h : Covers entries values) :
    ∀ idx ∈ indicesOf entries values, Fits (indexWidth entries.length) idx := by
  intro idx hidx
  obtain ⟨v, hv, rfl⟩ := List.mem_map.mp hidx
  exact fits_of_lt h.small (h.idxOf_lt hv)

theorem readIndices_emit {entries values : List Str} (h : Covers entries values)
    {data : List UInt8} {start : ℕ}
    (hat : At data start (writeIndices (indexWidth entries.length) (indicesOf entries values))) :
    readIndices data start (indexWidth entries.length) values.length =
      some (indicesOf entries values) := by
  have hread := readIndices_spec (fits_indicesOf h) hat
  rwa [indicesOf, List.length_map] at hread

theorem parseHeaderWith_emit {α : Type} {view : Str → Option α} {g : Str → α}
    {entries values : List Str} (h : Covers entries values)
    (hview : ∀ e ∈ entries, view e = some (g e)) :
    parseHeaderWith view (emit entries values) =
      some { dict := entries.map g
             indexWidth := indexWidth entries.length
             emptyStringIdx := emptyStringIdx entries
             indicesStart := 7 + (entriesBlob entries).length } := by
  obtain ⟨hsize, hwidth, hempty, hat⟩ := readHeader h.small
    (entriesBlob entries ++ writeIndices (indexWidth entries.length) (indicesOf entries values))
    (show emit entries values = _ from rfl)
  have hentries := parseEntries_spec entries 7 h.short hview hat
  simp only [parseHeaderWith, hsize, hwidth, hempty, hentries, bind, Option.bind,
    toNat_indexWidth]
  rfl

theorem at_indices (entries values : List Str) :
    At (emit entries values) (7 + (entriesBlob entries).length)
      (writeIndices (indexWidth entries.length) (indicesOf entries values)) := by
  have hat := at_append (writeHeader entries)
    (entriesBlob entries ++ writeIndices (indexWidth entries.length) (indicesOf entries values))
  rw [length_writeHeader] at hat
  exact hat.skip

/-- Each row of a column reads as its entry's view. -/
theorem decodeWith_emit {α : Type} {view : Str → Option α} {g : Str → α}
    {entries values : List Str} (h : Covers entries values)
    (hview : ∀ e ∈ entries, view e = some (g e)) :
    decodeWith view (emit entries values) values.length = some (values.map g) := by
  unfold decodeWith
  by_cases hzero : values.length = 0
  · rw [if_pos hzero, List.length_eq_zero_iff.mp hzero]
    rfl
  · rw [if_neg hzero, parseHeaderWith_emit h hview]
    show (do
      let indices ← readIndices (emit entries values) (7 + (entriesBlob entries).length)
        (indexWidth entries.length) values.length
      indices.mapM fun idx => (entries.map g)[idx]?) = _
    rw [readIndices_emit h (at_indices entries values)]
    show (indicesOf entries values).mapM _ = _
    rw [indicesOf, List.mapM_map]
    apply mapM_eq_pure
    intro v hv
    show (entries.map g)[entries.idxOf v]? = some (g v)
    rw [List.getElem?_map, List.getElem?_idxOf (h.mem v hv), Option.map_some]

/-! ## The flat readers -/

/-- The ranges of entries written from `off` on. -/
def rangesFrom (off : ℕ) : List Str → List (ℕ × ℕ)
  | [] => []
  | e :: entries => (off + 4, e.length) :: rangesFrom (off + 4 + e.length) entries

theorem entryRangesIn_spec {data rest : List UInt8} (entries : List Str) (off : ℕ)
    (hat : At data off (entriesBlob entries ++ rest))
    (hsmall : off + (entriesBlob entries).length < 2 ^ 32) :
    entryRangesIn data entries.length off = some (rangesFrom off entries) := by
  induction entries generalizing off with
  | nil => rfl
  | cons e entries ih =>
      rw [entriesBlob_cons, List.length_append, List.length_append, length_toLe] at hsmall
      rw [entriesBlob_cons, List.append_assoc, List.append_assoc] at hat
      have hlen := hat.leAt (show e.length < 256 ^ 4 by omega)
      have hbody := hat.skip
      rw [length_toLe] at hbody
      have hrest := ih (off + 4 + e.length) hbody.skip (by omega)
      have hoff : asU32 (off + 4) = off + 4 := Nat.mod_eq_of_lt (by omega)
      have hsize : asU32 e.length = e.length := Nat.mod_eq_of_lt (by omega)
      simp only [List.length_cons, entryRangesIn, hlen, hrest, bind, Option.bind, hoff, hsize]
      rfl

/-- The last range ends where the entries do. -/
theorem getLast?_rangesFrom (e : Str) (entries : List Str) (off : ℕ) :
    (rangesFrom off (e :: entries)).getLast?.map (fun r => r.1 + r.2) =
      some (off + (entriesBlob (e :: entries)).length) := by
  induction entries generalizing e off with
  | nil =>
      rw [entriesBlob_cons]
      simp [rangesFrom, entriesBlob, Nat.add_assoc]
  | cons u entries ih =>
      have hrest := ih u (off + 4 + e.length)
      rw [rangesFrom, rangesFrom, List.getLast?_cons_cons, ← rangesFrom, hrest,
        entriesBlob_cons e, List.length_append, List.length_append, length_toLe]
      congr 1
      omega

theorem entriesLen_rangesFrom (entries : List Str) (hsmall : (entriesBlob entries).length < 2 ^ 32) :
    entriesLen (rangesFrom 0 entries) = (entriesBlob entries).length := by
  cases entries with
  | nil => rfl
  | cons e entries =>
      have hlast := getLast?_rangesFrom e entries 0
      obtain ⟨r, hr, hsum⟩ := Option.map_eq_some_iff.mp hlast
      rw [entriesLen, hr, Option.map_some, Option.getD_some, hsum, Nat.zero_add]
      exact Nat.mod_eq_of_lt hsmall

/-- An entry's range holds the entry. -/
theorem slice_rangesFrom {buf rest : List UInt8} (entries : List Str) (off : ℕ)
    (hat : At buf off (entriesBlob entries ++ rest)) {idx : ℕ} {e : Str}
    (hidx : entries[idx]? = some e) :
    ∃ range, (rangesFrom off entries)[idx]? = some range ∧
      slice buf range.1 (range.1 + range.2) = some e := by
  induction entries generalizing off idx with
  | nil => exact absurd hidx (by simp)
  | cons u entries ih =>
      rw [entriesBlob_cons, List.append_assoc, List.append_assoc] at hat
      have hbody := hat.skip
      rw [length_toLe] at hbody
      cases idx with
      | zero =>
          obtain rfl : u = e := by simpa using hidx
          exact ⟨(off + 4, u.length), rfl, hbody.slice⟩
      | succ idx =>
          rw [List.getElem?_cons_succ] at hidx
          exact ih (off + 4 + u.length) hbody.skip hidx

/-- A buffer of the entries and the ranges of the entries give back the rows. -/
theorem flatRows_rangesFrom {entries values : List Str} (h : Covers entries values) :
    flatRows ({ buf := entriesBlob entries, entryRanges := rangesFrom 0 entries },
      indicesOf entries values) = some values := by
  rw [flatRows, indicesOf, List.mapM_map]
  have hrows : values.mapM (fun v => FlatDict.entry
      { buf := entriesBlob entries, entryRanges := rangesFrom 0 entries } (entries.idxOf v)) =
        pure (values.map id) := by
    apply mapM_eq_pure
    intro v hv
    have hat : At (entriesBlob entries) 0 (entriesBlob entries ++ []) := by
      rw [List.append_nil]
      exact at_zero _
    obtain ⟨range, hrange, hslice⟩ :=
      slice_rangesFrom entries 0 hat (List.getElem?_idxOf (h.mem v hv))
    simp only [FlatDict.entry, hrange, bind, Option.bind, hslice]
    rfl
  rw [List.map_id] at hrows
  exact hrows

theorem decodeFlat_emit {entries values : List Str} (h : Covers entries values)
    (hsmall : (entriesBlob entries).length < 2 ^ 32) :
    ∃ flat, decodeFlat (emit entries values) values.length = some flat ∧
      flatRows flat = some values := by
  obtain ⟨hsize, hwidth, -, hat⟩ := readHeader h.small
    (entriesBlob entries ++ writeIndices (indexWidth entries.length) (indicesOf entries values))
    (show emit entries values = _ from rfl)
  have hblob : slice (emit entries values) 7 (emit entries values).length =
      some (entriesBlob entries ++
        writeIndices (indexWidth entries.length) (indicesOf entries values)) := by
    have hwhole := hat
    rw [← List.append_nil (entriesBlob entries ++ _)] at hwhole
    rw [hat.length]
    exact hwhole.slice
  have hranges := entryRangesIn_spec entries 0
    (at_zero (entriesBlob entries ++
      writeIndices (indexWidth entries.length) (indicesOf entries values)))
    (by rw [Nat.zero_add]; exact hsmall)
  refine ⟨({ buf := entriesBlob entries, entryRanges := rangesFrom 0 entries },
    indicesOf entries values), ?_, flatRows_rangesFrom h⟩
  simp only [decodeFlat, hsize, hwidth, hblob, hranges, bind, Option.bind,
    entriesLen_rangesFrom entries hsmall, hat.slice, toNat_indexWidth,
    readIndices_emit h (at_indices entries values)]
  rfl

/-! ## The compressed writer -/

def emitLz4 (lz4 : Lz4Flex) (entries values : List Str) : List UInt8 :=
  writeHeader entries ++
    (toLe 4 (lz4.compressPrependSize (entriesBlob entries)).length ++
      (lz4.compressPrependSize (entriesBlob entries) ++
        writeIndices (indexWidth entries.length) (indicesOf entries values)))

theorem encodeLz4_eq_emitLz4 (lz4 : Lz4Flex) {values : List Str}
    (h : shouldUseDictionary values = true) (hshort : ∀ v ∈ values, v.length < 2 ^ 32)
    (hne : values ≠ []) :
    encodeLz4 lz4 values = emitLz4 lz4 (sortEntries (dictEntries values)) values := by
  have hcovers := covers_dictEntries h hshort
  have hsorted := hcovers.perm (perm_sortEntries _)
  have hindices : (values.flatMap fun v =>
        writeIndex (indexWidth (sortEntries (dictEntries values)).length)
          ((remapOf (dictEntries values) (sortEntries (dictEntries values))).getD
            ((dictEntries values).idxOf v % 65536) 0)) =
      values.flatMap fun v => writeIndex (indexWidth (sortEntries (dictEntries values)).length)
        ((sortEntries (dictEntries values)).idxOf v) := by
    apply List.flatMap_congr
    intro v hv
    rw [getD_remapOf hcovers hsorted hv]
  rw [encodeLz4, if_neg hne, emitLz4]
  simp only [hindices, flatMap_writeIndex, List.append_assoc]
  rfl

section Compressed

variable {lz4 : Lz4Flex} {entries values : List Str} (hlz4 : lz4.Inverts)
  (hraw : (entriesBlob entries).length < 2 ^ 32)
  (hcompressed : (lz4.compressPrependSize (entriesBlob entries)).length < 2 ^ 32)

include hlz4 hraw hcompressed

/-- What the readers of a compressed column find behind its header. -/
theorem readLz4 (values : List Str) :
    leAt 4 (emitLz4 lz4 entries values) 7 =
        some (lz4.compressPrependSize (entriesBlob entries)).length ∧
      decompressEntries lz4 (emitLz4 lz4 entries values)
        (lz4.compressPrependSize (entriesBlob entries)).length = some (entriesBlob entries) ∧
      At (emitLz4 lz4 entries values)
        (11 + (lz4.compressPrependSize (entriesBlob entries)).length)
        (writeIndices (indexWidth entries.length) (indicesOf entries values)) := by
  have hat := at_append (writeHeader entries)
    (toLe 4 (lz4.compressPrependSize (entriesBlob entries)).length ++
      (lz4.compressPrependSize (entriesBlob entries) ++
        writeIndices (indexWidth entries.length) (indicesOf entries values)))
  rw [length_writeHeader] at hat
  have hbody := hat.skip
  rw [length_toLe] at hbody
  have hpos : 0 < (lz4.compressPrependSize (entriesBlob entries)).length :=
    List.length_pos_of_ne_nil (hlz4.compress_ne_nil _)
  refine ⟨hat.leAt hcompressed, ?_, hbody.skip⟩
  have hslice := hbody.slice
  rw [decompressEntries, if_pos hpos]
  show (slice (emitLz4 lz4 entries values) (7 + 4) _).bind _ = _
  rw [emitLz4, hslice]
  exact hlz4.decompress _ hraw

theorem normalizeLz4_emitLz4 (hsmall : entries.length ≤ 65535) (values : List Str) :
    normalizeLz4 lz4 (emitLz4 lz4 entries values) = some (emit entries values) := by
  obtain ⟨hlen, hentries, hat⟩ := readLz4 hlz4 hraw hcompressed values
  obtain ⟨hsize, hempty⟩ := sliceHeader entries _ (show emitLz4 lz4 entries values = _ from rfl)
  obtain ⟨-, hwidth, -, -⟩ := readHeader hsmall _ (show emitLz4 lz4 entries values = _ from rfl)
  have hindices : slice (emitLz4 lz4 entries values)
      (11 + (lz4.compressPrependSize (entriesBlob entries)).length)
      (emitLz4 lz4 entries values).length =
        some (writeIndices (indexWidth entries.length) (indicesOf entries values)) := by
    have hwhole := hat
    rw [← List.append_nil (writeIndices _ _)] at hwhole
    rw [hat.length]
    exact hwhole.slice
  simp only [normalizeLz4, hsize, hwidth, hempty, hlen, hentries, hindices, bind, Option.bind]
  rw [emit, writeHeader]
  simp only [List.append_assoc]
  rfl

theorem decodeFlatLz4_emitLz4 (h : Covers entries values) :
    ∃ flat, decodeFlatLz4 lz4 (emitLz4 lz4 entries values) values.length = some flat ∧
      flatRows flat = some values := by
  obtain ⟨hlen, hentries, hat⟩ := readLz4 hlz4 hraw hcompressed values
  obtain ⟨hsize, hwidth, -, -⟩ := readHeader h.small _ (show emitLz4 lz4 entries values = _ from rfl)
  have hblob : At (entriesBlob entries) 0 (entriesBlob entries ++ []) := by
    rw [List.append_nil]
    exact at_zero _
  have hranges := entryRangesIn_spec entries 0 hblob (by rw [Nat.zero_add]; exact hraw)
  refine ⟨({ buf := entriesBlob entries, entryRanges := rangesFrom 0 entries },
    indicesOf entries values), ?_, flatRows_rangesFrom h⟩
  simp only [decodeFlatLz4, hsize, hwidth, hlen, hentries, hranges, bind, Option.bind,
    toNat_indexWidth, readIndices_emit h hat]
  rfl

end Compressed

/-! ## The empty string -/

theorem emptyStringIdx_spec {entries values : List Str} (h : Covers entries values) :
    (emptyStringIdx entries = 0xFFFF ∧ ∀ v ∈ values, v ≠ []) ∨
      (emptyStringIdx entries ≠ 0xFFFF ∧
        ∀ v ∈ values, entries.idxOf v = emptyStringIdx entries ↔ v = []) := by
  have hsmall := h.small
  unfold emptyStringIdx
  cases hfind : entries.findIdx? List.isEmpty with
  | none =>
      refine Or.inl ⟨rfl, fun v hv hempty => ?_⟩
      have hnone := List.findIdx?_eq_none_iff.mp hfind v (h.mem v hv)
      rw [hempty] at hnone
      exact absurd hnone (by decide)
  | some i =>
      obtain ⟨hlt, hisEmpty, -⟩ := List.findIdx?_eq_some_iff_getElem.mp hfind
      have hentry : entries[i] = [] := List.isEmpty_iff.mp hisEmpty
      have hmod : i % 65536 = i := Nat.mod_eq_of_lt (by omega)
      refine Or.inr ⟨?_, fun v hv => ?_⟩
      · rw [Option.map_some, Option.getD_some, hmod]
        omega
      · rw [Option.map_some, Option.getD_some, hmod]
        constructor
        · intro hidx
          have hget := List.getElem?_idxOf (h.mem v hv)
          rw [hidx, List.getElem?_eq_getElem hlt, hentry] at hget
          exact (Option.some.inj hget).symm
        · intro hempty
          rw [hempty, ← hentry]
          exact h.nodup.idxOf_getElem i hlt

theorem checkNeEmpty_emit {entries values : List Str} (h : Covers entries values)
    (hvalid : ∀ e ∈ entries, (fromUtf8 e).isSome) :
    ∃ sel, checkNeEmpty (emit entries values) values.length = some sel ∧
      (sel = values.map (fun v => decide (v ≠ [])) ∨ sel = [] ∧ ∀ v ∈ values, v ≠ []) := by
  unfold checkNeEmpty
  by_cases hzero : values.length = 0
  · refine ⟨[], if_pos hzero, Or.inr ⟨rfl, fun v hv => ?_⟩⟩
    rw [List.length_eq_zero_iff.mp hzero] at hv
    exact absurd hv List.not_mem_nil
  · have hview : ∀ e ∈ entries, fromUtf8 e = some ((fromUtf8 e).getD []) := by
      intro e he
      obtain ⟨text, htext⟩ := Option.isSome_iff_exists.mp (hvalid e he)
      rw [htext, Option.getD_some]
    have hheader := parseHeaderWith_emit h hview
    rw [if_neg hzero, parseHeader, hheader]
    simp only [bind, Option.bind]
    cases emptyStringIdx_spec h with
    | inl hnone => exact ⟨[], if_pos hnone.1, Or.inr ⟨rfl, hnone.2⟩⟩
    | inr hsome =>
        refine ⟨_, ?_, Or.inl rfl⟩
        rw [if_neg hsome.1, readIndices_emit h (at_indices entries values)]
        show some ((indicesOf entries values).map _) = _
        rw [indicesOf, List.map_map]
        congr 1
        apply List.map_congr_left
        intro v hv
        have hiff := hsome.2 v hv
        simp only [Function.comp_apply, ne_eq, hiff]

/-! ## All readers -/

/-- What the plain readers owe a column: the rows, from distinct entries, and its non-empty
rows; as text where the rows are texts. -/
structure PlainRead (data : List UInt8) (values : List Str) : Prop where
  byteSlices : decodeToByteSlices data values.length = some values
  distinct : ∃ hdr, parseHeaderBytes data = some hdr ∧ hdr.dict.Nodup
  text : ∀ texts : List (List Char), values = texts.map utf8Bytes →
    decode data values.length = some texts
  nonEmpty : ∀ texts : List (List Char), values = texts.map utf8Bytes →
    ∃ sel, checkNeEmpty data values.length = some sel ∧
      (sel = values.map (fun v => decide (v ≠ [])) ∨ sel = [] ∧ ∀ v ∈ values, v ≠ [])

/-- A flat reader's answer stands for the rows. -/
def FlatRead (flat : Option (FlatDict × List ℕ)) (values : List Str) : Prop :=
  ∃ f, flat = some f ∧ flatRows f = some values

/-- `count` rows of `emit` with only values of the column among its entries. -/
theorem plainRead_emit {entries values : List Str} (h : Covers entries values)
    (hmem : ∀ e ∈ entries, e ∈ values) : PlainRead (emit entries values) values where
  byteSlices := by
    have hrows := decodeWith_emit (g := id) h (fun e _ => rfl)
    rwa [List.map_id] at hrows
  distinct := by
    have hheader := parseHeaderWith_emit (g := id) h (fun e _ => rfl)
    rw [List.map_id] at hheader
    exact ⟨_, hheader, h.nodup⟩
  text texts htexts := by
    have hview : ∀ e ∈ entries, fromUtf8 e = some ((fromUtf8 e).getD []) := by
      intro e he
      have hvalue := hmem e he
      rw [htexts] at hvalue
      obtain ⟨text, -, rfl⟩ := List.mem_map.mp hvalue
      rw [fromUtf8_utf8Bytes, Option.getD_some]
    have hback : values.map (fun e => (fromUtf8 e).getD []) = texts := by
      rw [htexts, List.map_map]
      calc texts.map ((fun e => (fromUtf8 e).getD []) ∘ utf8Bytes)
          = texts.map id := List.map_congr_left fun text _ => by
            rw [Function.comp_apply, fromUtf8_utf8Bytes, Option.getD_some, id]
        _ = texts := List.map_id texts
    have hrows := decodeWith_emit h hview
    rwa [hback] at hrows
  nonEmpty texts htexts := by
    apply checkNeEmpty_emit h
    intro e he
    have hvalue := hmem e he
    rw [htexts] at hvalue
    obtain ⟨text, -, rfl⟩ := List.mem_map.mp hvalue
    rw [fromUtf8_utf8Bytes, Option.isSome_some]

/-- The bytes the distinct strings take, each behind its length. -/
def entriesSize (values : List Str) : ℕ := (entriesBlob (dictEntries values)).length

theorem length_entriesBlob_sorted (values : List Str) :
    (entriesBlob (sortEntries (dictEntries values))).length = entriesSize values :=
  ((perm_sortEntries _).flatMap_right writeEntry).length_eq

/-- All readers agree with the writers.  The plain readers need nothing but the acceptance; the
flat ones and the compressed format need sizes that fit 32 bits. -/
theorem dictionary_readers_agree {lz4 : Lz4Flex} (hlz4 : lz4.Inverts) {values : List Str}
    (haccepted : shouldUseDictionary values = true)
    (hshort : ∀ v ∈ values, v.length < 2 ^ 32) :
    PlainRead (encode values) values ∧
      (entriesSize values < 2 ^ 32 →
        FlatRead (decodeFlat (encode values) values.length) values ∧
        ((lz4.compressPrependSize (entriesBlob (sortEntries (dictEntries values)))).length <
            2 ^ 32 →
          (∃ plain, normalizeLz4 lz4 (encodeLz4 lz4 values) = some plain ∧
            PlainRead plain values ∧ FlatRead (decodeFlat plain values.length) values) ∧
          FlatRead (decodeFlatLz4 lz4 (encodeLz4 lz4 values) values.length) values)) := by
  have hcovers := covers_dictEntries haccepted hshort
  have hsorted := hcovers.perm (perm_sortEntries _)
  have hmem : ∀ e ∈ sortEntries (dictEntries values), e ∈ values := fun e he =>
    (mem_dictEntries values e).mp ((perm_sortEntries _).mem_iff.mp he)
  rw [encode_eq_emit haccepted hshort]
  refine ⟨plainRead_emit hcovers fun e he => (mem_dictEntries values e).mp he, fun hsize =>
    ⟨decodeFlat_emit hcovers hsize, fun hcompressed => ?_⟩⟩
  have hraw : (entriesBlob (sortEntries (dictEntries values))).length < 2 ^ 32 := by
    rw [length_entriesBlob_sorted]
    exact hsize
  by_cases hempty : values = []
  · subst hempty
    exact ⟨⟨emit [] [], rfl, plainRead_emit hcovers fun e he => he, decodeFlat_emit hcovers hsize⟩,
      ⟨({ buf := [], entryRanges := [] }, []), rfl, rfl⟩⟩
  · rw [encodeLz4_eq_emitLz4 lz4 haccepted hshort hempty]
    exact ⟨⟨_, normalizeLz4_emitLz4 hlz4 hraw hcompressed hsorted.small values,
      plainRead_emit hsorted hmem, decodeFlat_emit hsorted hraw⟩,
      decodeFlatLz4_emitLz4 hlz4 hraw hcompressed hsorted⟩

theorem dictionary_readers_agree_on_four_rows :
    PlainRead (encode [[0x68, 0x69], [], [0x68, 0x69], []]) [[0x68, 0x69], [], [0x68, 0x69], []] ∧
      FlatRead (decodeFlatLz4 Literals.lz4
        (encodeLz4 Literals.lz4 [[0x68, 0x69], [], [0x68, 0x69], []]) 4)
          [[0x68, 0x69], [], [0x68, 0x69], []] := by
  have hagree := dictionary_readers_agree Literals.lz4_inverts
    (show shouldUseDictionary [[0x68, 0x69], [], [0x68, 0x69], []] = true by decide) (by decide)
  refine ⟨hagree.1, ((hagree.2 (by decide)).2 ?_).2⟩
  rw [Literals.length_compress_of_lt] <;> rw [length_entriesBlob_sorted] <;> decide

/-! ## Beyond 32 bits -/

section Wraps

variable {a b : Str}

theorem dictEntries_pairs (hne : a ≠ b) : dictEntries [a, a, b, b] = [a, b] := by
  have hba : b ≠ a := Ne.symm hne
  simp [dictEntries, addUnique, hba]

theorem shouldUseDictionary_pairs (hne : a ≠ b) : shouldUseDictionary [a, a, b, b] = true := by
  have hba : b ≠ a := Ne.symm hne
  simp [shouldUseDictionary, collectUnique, addUnique, hba]

variable (ha : a.length = 2 ^ 31) (hb : b.length = 2 ^ 31)

include ha hb

/-- The end of the second entry wraps. -/
theorem entryRangesIn_pairs (rest : List UInt8) :
    entryRangesIn (entriesBlob [a, b] ++ rest) 2 0 =
      some [(4, 2 ^ 31), (2 ^ 31 + 8, 2 ^ 31)] := by
  have hat := at_zero (entriesBlob [a, b] ++ rest)
  have hblob : entriesBlob [a, b] ++ rest =
      toLe 4 a.length ++ (a ++ (toLe 4 b.length ++ (b ++ rest))) := by
    rw [entriesBlob_cons, entriesBlob_cons]
    simp only [entriesBlob, List.flatMap_nil, List.append_nil, List.append_assoc]
  rw [show At _ 0 _ = At (entriesBlob [a, b] ++ rest) 0
    (toLe 4 a.length ++ (a ++ (toLe 4 b.length ++ (b ++ rest)))) by rw [← hblob]] at hat
  have hbody := hat.skip
  rw [length_toLe] at hbody
  have hfirst := hat.leAt (by omega)
  have hsecond := hbody.skip.leAt (by omega)
  rw [ha] at hfirst hsecond
  rw [hb] at hsecond
  simp only [entryRangesIn, hfirst, hsecond, bind, Option.bind]
  rfl

/-- Two entries of 2^31 bytes end past 2^32: the end wraps, and the flat buffer is cut there. -/
theorem flatRows_pairs_ne (hne : a ≠ b) (flat : FlatDict × List ℕ)
    (hflat : decodeFlat (encode [a, a, b, b]) 4 = some flat) :
    flatRows flat ≠ some [a, a, b, b] := by
  have hshort : ∀ v ∈ [a, a, b, b], v.length < 2 ^ 32 := by
    simp only [List.mem_cons, List.not_mem_nil, or_false, forall_eq_or_imp, forall_eq, ha, hb]
    omega
  have hencode := encode_eq_emit (shouldUseDictionary_pairs hne) hshort
  rw [dictEntries_pairs hne] at hencode
  obtain ⟨hsize, hwidth, -, hat⟩ := readHeader (show [a, b].length ≤ 65535 by simp)
    (entriesBlob [a, b] ++ writeIndices (indexWidth [a, b].length)
      (indicesOf [a, b] [a, a, b, b])) hencode
  have hblob : slice (encode [a, a, b, b]) 7 (encode [a, a, b, b]).length =
      some (entriesBlob [a, b] ++ writeIndices (indexWidth [a, b].length)
        (indicesOf [a, b] [a, a, b, b])) := by
    have hwhole := hat
    rw [← List.append_nil (entriesBlob [a, b] ++ _)] at hwhole
    rw [hat.length]
    exact hwhole.slice
  have hend : entriesLen [(4, 2 ^ 31), (2 ^ 31 + 8, 2 ^ 31)] = 8 := by decide
  have htwo : [a, b].length = 2 := rfl
  simp only [decodeFlat, hsize, hwidth, hblob, htwo, bind, Option.bind_some,
    entryRangesIn_pairs ha hb, hend] at hflat
  obtain ⟨buf, hbuf, hflat⟩ := Option.bind_eq_some_iff.mp hflat
  obtain ⟨indices, -, hflat⟩ := Option.bind_eq_some_iff.mp hflat
  have hshape := Option.some.inj hflat
  have hbufLen : buf.length ≤ 8 := by
    unfold slice at hbuf
    split at hbuf
    · rw [← Option.some.inj hbuf]
      exact List.length_take_le _ _
    · exact absurd hbuf (by simp)
  have hentry : ∀ idx, FlatDict.entry
      { buf := buf, entryRanges := [(4, 2 ^ 31), (2 ^ 31 + 8, 2 ^ 31)] } idx = none := by
    intro idx
    have hout : ∀ start, slice buf start (start + 2 ^ 31) = none := fun start =>
      slice_eq_none_of_lt (by omega)
    cases idx with
    | zero => exact hout 4
    | succ idx =>
        cases idx with
        | zero => exact hout (2 ^ 31 + 8)
        | succ idx => rfl
  rw [← hshape, flatRows]
  cases indices with
  | nil => simp
  | cons idx rest =>
      rw [List.mapM_cons, hentry]
      simp

end Wraps

/-- The text reader panics on entries that are not UTF-8, and 32-bit offsets do not reach every
entry of a large dictionary. -/
theorem dictionary_readers_limits :
    (shouldUseDictionary [[0xFF], [0xFF]] = true ∧ decode (encode [[0xFF], [0xFF]]) 2 = none) ∧
      ∃ values : List Str, shouldUseDictionary values = true ∧
        (∀ v ∈ values, v.length < 2 ^ 32) ∧
        ¬ FlatRead (decodeFlat (encode values) values.length) values := by
  refine ⟨⟨by decide, by decide⟩, ?_⟩
  have hne : List.replicate (2 ^ 31) (0 : UInt8) ≠ List.replicate (2 ^ 31) 1 := by
    intro heq
    cases (List.replicate_inj.mp heq).2 with
    | inl hzero => omega
    | inr hsame => exact absurd hsame (by decide)
  have ha : (List.replicate (2 ^ 31) (0 : UInt8)).length = 2 ^ 31 := List.length_replicate
  have hb : (List.replicate (2 ^ 31) (1 : UInt8)).length = 2 ^ 31 := List.length_replicate
  generalize List.replicate (2 ^ 31) (0 : UInt8) = a at *
  generalize List.replicate (2 ^ 31) (1 : UInt8) = b at *
  refine ⟨[a, a, b, b], shouldUseDictionary_pairs hne, ?_, ?_⟩
  · simp only [List.mem_cons, List.not_mem_nil, or_false, forall_eq_or_imp, forall_eq, ha, hb]
    omega
  · rintro ⟨flat, hflat, hrows⟩
    exact flatRows_pairs_ne ha hb hne flat hflat hrows

end DeltaX.Codec.Dictionary
