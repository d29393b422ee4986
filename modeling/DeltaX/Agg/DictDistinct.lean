import DeltaX.Agg.Accumulators
import DeltaX.Scan.DictPruning
import DeltaX.Support.Chunks
import DeltaX.Support.Interning
/-!
# Distinct texts as bits

`COUNT(DISTINCT c)` of a text column gives each string a number, the same in all segments, and
a group has a bit for each.  The strings are taken from the dictionaries, by several threads
with a table each, and the tables are merged.
-/

namespace DeltaX.Agg.DictDistinct

open Column Codec Codec.Dictionary Scan.DictPruning Support.ByteSlices Support.Chunks
  Support.Interning Support.ListLookup Support.Utf8

/-! ## The pre-pass -/

/-- `compressed_blobs` of a segment. -/
abbrev Blobs : Type := List (List UInt8)

def phaseDMaxGlobalForBitset : ℕ := 10000000

def phaseDMaxDictSizeSum : ℕ := 50000000

/-- The loop that looks at the first bytes of every dictionary: all segments have one at the
position, or nothing there, and they are small enough together. -/
def eligibleFrom (colIdx : ℕ) : ℕ → List Blobs → Option Bool
  | _, [] => some true
  | dictSizeSum, blobs :: segments =>
      match blobs[colIdx]? with
      | none => some false
      | some blob =>
          if blob = [] then eligibleFrom colIdx dictSizeSum segments
          else do
            let comp ← (blob[0]?).bind CompressionType.fromU8
            if comp ≠ .dictionary ∧ comp ≠ .dictionaryLz4 then some false
            else do
              let cc ← CompressedColumn.fromBytes blob
              match leAt 4 cc.data 0 with
              | none => some false
              | some dictSize =>
                  -- `saturating_add`
                  let dictSizeSum := min (dictSizeSum + dictSize) (2 ^ 64 - 1)
                  if dictSizeSum > phaseDMaxDictSizeSum then some false
                  else eligibleFrom colIdx dictSizeSum segments

def blobEntries (lz4 : Lz4Flex) (blob : List UInt8) : Option (List Text) :=
  if blob = [] then some []
  else do
    let cc ← CompressedColumn.fromBytes blob
    let plain ← dictData lz4 cc.typeTag cc.data
    let hdr ← parseHeader plain
    return hdr.dict

def segmentEntries (lz4 : Lz4Flex) (colIdx : ℕ) (blobs : Blobs) : Option (List Text) :=
  (blobs[colIdx]?).bind (blobEntries lz4)

structure LocalPrePass where
  localEntries : List Text
  segLocalRemaps : List (List ℕ)

def localPrePass (lz4 : Lz4Flex) (colIdx : ℕ) (chunk : List Blobs) : Option LocalPrePass := do
  let dicts ← chunk.mapM (segmentEntries lz4 colIdx)
  let interned := internLists [] dicts
  return { localEntries := interned.1, segLocalRemaps := interned.2.map (List.map asU32) }

structure DictDistinctRemap where
  globalCount : ℕ
  perSegment : List (List ℕ)
deriving DecidableEq, Repr

def rewriteIds (tRemap : List ℕ) (segLocalRemaps : List (List ℕ)) : Option (List (List ℕ)) :=
  segLocalRemaps.mapM fun segRemap => segRemap.mapM fun slot => tRemap[slot]?

/-- The round of `build_dict_distinct_remaps` for an aggregate: no remap where it is not of the
kind, is not eligible, or has no strings or too many. -/
def specRemap (lz4 : Lz4Flex) (nWorkers : ℕ) (allSegments : List Blobs) (spec : AggExecSpec) :
    Option (Option DictDistinctRemap) :=
  if spec.aggType ≠ .countDistinct then some none
  else if isTextType spec.colTypeOid = false then some none
  else if spec.colIdx < 0 then some none
  else do
    let colIdx := spec.colIdx.toNat
    let eligible ← eligibleFrom colIdx 0 allSegments
    if eligible = false then some none
    else do
      let chunkSize := max (divCeil allSegments.length (max nWorkers 1)) 1
      let localResults ← (chunks chunkSize allSegments).mapM (localPrePass lz4 colIdx)
      -- phase 2
      let merged := internLists [] (localResults.map LocalPrePass.localEntries)
      let threadToGlobal := merged.2.map (List.map asU32)
      let globalCount := asU32 merged.1.length
      if globalCount = 0 then some none
      else if globalCount > phaseDMaxGlobalForBitset then some none
      else do
        let globalChunks ← (localResults.zip threadToGlobal).mapM fun thread =>
          rewriteIds thread.2 thread.1.segLocalRemaps
        return some { globalCount, perSegment := globalChunks.flatten }

def buildDictDistinctRemaps (lz4 : Lz4Flex) (nWorkers : ℕ) (allSegments : List Blobs)
    (aggSpecs : List AggExecSpec) : Option (List (Option DictDistinctRemap)) :=
  aggSpecs.mapM (specRemap lz4 nWorkers allSegments)

/-! ## The bits of a group -/

/-- The words of a `Bitset`, bit by bit. -/
abbrev Bitset : Type := List Bool

namespace Bitset

def withSize (nbits : ℕ) : Bitset := List.replicate (64 * divCeil nbits 64) false

def set (bits : Bitset) (idx : ℕ) : Bitset := List.set bits idx true

def orWith (bits other : Bitset) : Bitset := List.zipWith (· || ·) bits other

def countOnes (bits : Bitset) : ℕ := List.count true bits

end Bitset

/-- The global id of an entry of a segment's dictionary. -/
def DictDistinctRemap.idAt (remap : DictDistinctRemap) (seg entry : ℕ) : Option ℕ :=
  (remap.perSegment[seg]?).bind (·[entry]?)

def workerBits (remap : DictDistinctRemap) (rows : List (ℕ × ℕ)) : Bitset :=
  (rows.filterMap fun row => remap.idAt row.1 row.2).foldl Bitset.set
    (Bitset.withSize remap.globalCount)

def groupBits (remap : DictDistinctRemap) (workers : List (List (ℕ × ℕ))) : Bitset :=
  (workers.map (workerBits remap)).foldl Bitset.orWith (Bitset.withSize remap.globalCount)

/-! ## Sets of bits -/

namespace Bitset

def ofFinset (n : ℕ) (ids : Finset ℕ) : Bitset := (List.range n).map fun k => decide (k ∈ ids)

theorem withSize_eq (nbits : ℕ) : withSize nbits = ofFinset (64 * divCeil nbits 64) ∅ := by
  apply List.ext_getElem
  · simp [withSize, ofFinset]
  · intro i hi hi'
    simp [withSize, ofFinset]

theorem set_ofFinset (n : ℕ) (ids : Finset ℕ) (idx : ℕ) :
    set (ofFinset n ids) idx = ofFinset n (insert idx ids) := by
  apply List.ext_getElem
  · simp [set, ofFinset]
  · intro i hi hi'
    by_cases heq : idx = i
    · subst heq
      simp [set, ofFinset]
    · simp [set, ofFinset, List.getElem_set_ne heq, Ne.symm heq]

theorem orWith_ofFinset (n : ℕ) (ids ids' : Finset ℕ) :
    orWith (ofFinset n ids) (ofFinset n ids') = ofFinset n (ids ∪ ids') := by
  apply List.ext_getElem
  · simp [orWith, ofFinset]
  · intro i hi hi'
    simp [orWith, ofFinset]

theorem countOnes_ofFinset {n : ℕ} {ids : Finset ℕ} (h : ∀ id ∈ ids, id < n) :
    countOnes (ofFinset n ids) = ids.card := by
  have hids : ids = (Finset.range n).filter (· ∈ ids) := by
    ext id
    rw [Finset.mem_filter, Finset.mem_range]
    exact ⟨fun hid => ⟨h id hid, hid⟩, And.right⟩
  rw [countOnes, ofFinset, List.count_eq_countP, List.countP_map, List.countP_eq_length_filter]
  conv_rhs => rw [hids]
  rw [Finset.card_def, Finset.filter_val, Finset.range_val, Multiset.range, Multiset.filter_coe,
    Multiset.coe_card]
  congr 1
  apply List.filter_congr
  intro id _
  simp

end Bitset

def rowIds (remap : DictDistinctRemap) (rows : List (ℕ × ℕ)) : List ℕ :=
  rows.filterMap fun row => remap.idAt row.1 row.2

theorem workerBits_eq (remap : DictDistinctRemap) (rows : List (ℕ × ℕ)) :
    workerBits remap rows =
      Bitset.ofFinset (64 * divCeil remap.globalCount 64) (rowIds remap rows).toFinset := by
  have hfold : ∀ (ids : List ℕ) (done : Finset ℕ),
      ids.foldl Bitset.set (Bitset.ofFinset (64 * divCeil remap.globalCount 64) done) =
        Bitset.ofFinset (64 * divCeil remap.globalCount 64) (done ∪ ids.toFinset) := by
    intro ids
    induction ids with
    | nil => simp
    | cons id ids ih =>
        intro done
        rw [List.foldl_cons, Bitset.set_ofFinset, ih, List.toFinset_cons]
        congr 1
        ext k
        simp only [Finset.mem_union, Finset.mem_insert]
        tauto
  rw [workerBits, Bitset.withSize_eq]
  exact (hfold _ ∅).trans (by rw [Finset.empty_union]; rfl)

/-- Merging the workers of a group takes the ids of all its rows. -/
theorem groupBits_eq (remap : DictDistinctRemap) (workers : List (List (ℕ × ℕ))) :
    groupBits remap workers = Bitset.ofFinset (64 * divCeil remap.globalCount 64)
      (rowIds remap workers.flatten).toFinset := by
  have hfold : ∀ (workers : List (List (ℕ × ℕ))) (done : Finset ℕ),
      (workers.map (workerBits remap)).foldl Bitset.orWith
        (Bitset.ofFinset (64 * divCeil remap.globalCount 64) done) =
      Bitset.ofFinset (64 * divCeil remap.globalCount 64)
        (done ∪ (rowIds remap workers.flatten).toFinset) := by
    intro workers
    induction workers with
    | nil => simp [rowIds]
    | cons rows workers ih =>
        intro done
        have happend : rowIds remap (rows :: workers).flatten =
            rowIds remap rows ++ rowIds remap workers.flatten := by
          rw [rowIds, List.flatten_cons, List.filterMap_append]
          rfl
        rw [List.map_cons, List.foldl_cons, workerBits_eq, Bitset.orWith_ofFinset, ih, happend,
          List.toFinset_append, Finset.union_assoc]
  rw [groupBits, Bitset.withSize_eq, hfold, Finset.empty_union]

/-! ## The sizes of the dictionaries -/

theorem length_parseEntries {view : Str → Option Text} {data : List UInt8} {dictSize offset : ℕ}
    {entries : List Text} {stop : ℕ}
    (h : parseEntries view data dictSize offset = some (entries, stop)) :
    entries.length = dictSize := by
  induction dictSize generalizing offset entries stop with
  | zero =>
      cases h
      rfl
  | succ dictSize ih =>
      simp only [parseEntries, Option.bind_eq_bind, Option.bind_eq_some_iff, Option.pure_def,
        Option.some.injEq] at h
      obtain ⟨len, -, raw, -, entry, -, ⟨rest, stop'⟩, hrest, heq⟩ := h
      cases heq
      rw [List.length_cons, ih hrest]

theorem length_dict {data : List UInt8} {hdr : DictHeader Text} (h : parseHeader data = some hdr) :
    leAt 4 data 0 = some hdr.dict.length := by
  simp only [parseHeader, parseHeaderWith, Option.bind_eq_bind, Option.bind_eq_some_iff,
    Option.pure_def, Option.some.injEq] at h
  obtain ⟨dictSize, hsize, width, -, emptyIdx, -, ⟨dict, stop⟩, hentries, rfl⟩ := h
  rw [hsize]
  exact congrArg some (length_parseEntries hentries).symm

/-- The plain format begins as the compressed one. -/
theorem leAt_dictData {lz4 : Lz4Flex} {typeTag : CompressionType} {data plain : List UInt8}
    (h : dictData lz4 typeTag data = some plain) : leAt 4 plain 0 = leAt 4 data 0 := by
  unfold dictData at h
  split_ifs at h with htag
  · simp only [normalizeLz4, Option.bind_eq_bind, Option.bind_eq_some_iff, Option.pure_def,
      Option.some.injEq] at h
    obtain ⟨sizeBytes, hsize, width, -, emptyBytes, -, blobLen, -, raw, -, indices, -, rfl⟩ := h
    have hlen : sizeBytes.length = 4 := by
      unfold slice at hsize
      split_ifs at hsize with hin
      cases hsize
      rw [List.length_take, List.length_drop]
      omega
    have hplain : slice (sizeBytes ++ width :: emptyBytes ++ raw ++ indices) 0 4 =
        some sizeBytes := by
      unfold slice
      rw [if_pos (by simp only [List.length_append]; omega)]
      simp [hlen]
    rw [leAt, leAt, hplain, hsize]
  · rw [Option.some.inj h]

/-- The sizes that were added up are those of the dictionaries. -/
theorem length_blobEntries {lz4 : Lz4Flex} {blob : List UInt8} {cc : CompressedColumn}
    {entries : List Text} {dictSize : ℕ} (hne : blob ≠ [])
    (h : blobEntries lz4 blob = some entries) (hcc : CompressedColumn.fromBytes blob = some cc)
    (hsize : leAt 4 cc.data 0 = some dictSize) : entries.length = dictSize := by
  simp only [blobEntries, if_neg hne, hcc, Option.bind_eq_bind, Option.bind_some,
    Option.bind_eq_some_iff, Option.pure_def, Option.some.injEq] at h
  obtain ⟨plain, hplain, hdr, hhdr, rfl⟩ := h
  have hlen := length_dict hhdr
  rw [leAt_dictData hplain, hsize] at hlen
  exact (Option.some.inj hlen).symm

theorem typeTag_of_fromBytes {blob : List UInt8} {cc : CompressedColumn} {comp : CompressionType}
    (h : CompressedColumn.fromBytes blob = some cc)
    (hcomp : (blob[0]?).bind CompressionType.fromU8 = some comp) : cc.typeTag = comp := by
  obtain ⟨tag, htag, hcomp⟩ := Option.bind_eq_some_iff.mp hcomp
  simp only [CompressedColumn.fromBytes, htag, hcomp, Option.bind_eq_bind, Option.bind_some,
    Option.bind_eq_some_iff] at h
  obtain ⟨rowCount, -, hasNulls, -, h⟩ := h
  split_ifs at h
  · simp only [Option.bind_eq_some_iff, Option.pure_def, Option.some.injEq] at h
    obtain ⟨bitmap, -, data, -, rfl⟩ := h
    rfl
  · simp only [Option.bind_eq_some_iff, Option.pure_def, Option.some.injEq] at h
    obtain ⟨data, -, rfl⟩ := h
    rfl

/-- What the loop has found in a segment that it lets pass. -/
theorem eligibleFrom_cons {colIdx dictSizeSum : ℕ} {blobs : Blobs} {segments : List Blobs}
    (h : eligibleFrom colIdx dictSizeSum (blobs :: segments) = some true) :
    ∃ blob, blobs[colIdx]? = some blob ∧
      (blob = [] ∧ eligibleFrom colIdx dictSizeSum segments = some true ∨
        ∃ cc dictSize, blob ≠ [] ∧ CompressedColumn.fromBytes blob = some cc ∧
          (cc.typeTag = .dictionary ∨ cc.typeTag = .dictionaryLz4) ∧
          leAt 4 cc.data 0 = some dictSize ∧ dictSizeSum + dictSize ≤ phaseDMaxDictSizeSum ∧
          eligibleFrom colIdx (dictSizeSum + dictSize) segments = some true) := by
  unfold eligibleFrom at h
  cases hblob : blobs[colIdx]? with
  | none => simp [hblob] at h
  | some blob =>
      refine ⟨blob, rfl, ?_⟩
      simp only [hblob] at h
      by_cases hne : blob = []
      · rw [if_pos hne] at h
        exact Or.inl ⟨hne, h⟩
      rw [if_neg hne] at h
      obtain ⟨comp, hcomp, h⟩ := Option.bind_eq_some_iff.mp h
      by_cases hkind : comp ≠ .dictionary ∧ comp ≠ .dictionaryLz4
      · rw [if_pos hkind] at h
        cases h
      rw [if_neg hkind] at h
      obtain ⟨cc, hcc, h⟩ := Option.bind_eq_some_iff.mp h
      have htag : cc.typeTag = comp := typeTag_of_fromBytes hcc hcomp
      cases hsize : leAt 4 cc.data 0 with
      | none =>
          rw [hsize] at h
          cases h
      | some dictSize =>
          rw [hsize] at h
          by_cases hover : min (dictSizeSum + dictSize) (2 ^ 64 - 1) > phaseDMaxDictSizeSum
          · simp only [if_pos hover] at h
            cases h
          · simp only [if_neg hover] at h
            have hsmall : phaseDMaxDictSizeSum < 2 ^ 64 - 1 := by decide
            have hmin : min (dictSizeSum + dictSize) (2 ^ 64 - 1) = dictSizeSum + dictSize := by
              omega
            rw [hmin] at h hover
            refine Or.inr ⟨cc, dictSize, hne, hcc, ?_, hsize, Nat.le_of_not_lt hover, h⟩
            rw [htag]
            tauto

/-- The strings of all dictionaries are no more than the gate lets pass. -/
theorem length_flatten_le {lz4 : Lz4Flex} {colIdx : ℕ} {segments : List Blobs}
    {dicts : List (List Text)} {dictSizeSum : ℕ} (hsum : dictSizeSum ≤ phaseDMaxDictSizeSum)
    (heligible : eligibleFrom colIdx dictSizeSum segments = some true)
    (hdicts : segments.mapM (segmentEntries lz4 colIdx) = some dicts) :
    dictSizeSum + dicts.flatten.length ≤ phaseDMaxDictSizeSum := by
  induction segments generalizing dicts dictSizeSum with
  | nil =>
      cases hdicts
      exact hsum
  | cons blobs segments ih =>
      simp only [List.mapM_cons, Option.bind_eq_bind, Option.bind_eq_some_iff, Option.pure_def,
        Option.some.injEq] at hdicts
      obtain ⟨entries, hentries, rest, hrest, rfl⟩ := hdicts
      rw [List.flatten_cons, List.length_append]
      obtain ⟨blob, hblob, hentries⟩ := Option.bind_eq_some_iff.mp hentries
      obtain ⟨blob', hblob', hcases⟩ := eligibleFrom_cons heligible
      obtain rfl : blob = blob' := Option.some.inj (hblob.symm.trans hblob')
      rcases hcases with ⟨rfl, hnext⟩ | ⟨cc, dictSize, hne, hcc, -, hsize, hle, hnext⟩
      · cases hentries
        have htail := ih hsum hnext hrest
        simpa using htail
      · have hlen := length_blobEntries hne hentries hcc hsize
        have htail := ih hle hnext hrest
        omega

/-! ## The tables -/

/-- What a thread makes of the dictionaries of its segments. -/
def prePassOf (dicts : List (List Text)) : LocalPrePass where
  localEntries := (internLists [] dicts).1
  segLocalRemaps := (internLists [] dicts).2.map (List.map asU32)

theorem mapM_localPrePass {lz4 : Lz4Flex} {colIdx : ℕ} {segmentChunks : List (List Blobs)}
    {locals : List LocalPrePass} (h : segmentChunks.mapM (localPrePass lz4 colIdx) = some locals) :
    ∃ dictChunks : List (List (List Text)),
      segmentChunks.flatten.mapM (segmentEntries lz4 colIdx) =
        some dictChunks.flatten ∧ locals = dictChunks.map prePassOf := by
  induction segmentChunks generalizing locals with
  | nil =>
      cases h
      exact ⟨[], rfl, rfl⟩
  | cons chunk segmentChunks ih =>
      rw [List.mapM_cons] at h
      obtain ⟨first, hfirst, h⟩ := Option.bind_eq_some_iff.mp h
      obtain ⟨rest, hrest, h⟩ := Option.bind_eq_some_iff.mp h
      cases h
      obtain ⟨dicts, hdicts, hfirst⟩ := Option.bind_eq_some_iff.mp hfirst
      cases hfirst
      obtain ⟨dictChunks, hchunks, rfl⟩ := ih hrest
      refine ⟨dicts :: dictChunks, ?_, rfl⟩
      rw [List.flatten_cons, List.mapM_append, hdicts, hchunks]
      rfl

theorem map_asU32 {ids : List ℕ} (h : ∀ id ∈ ids, id < 2 ^ 32) : ids.map asU32 = ids := by
  have hid : ∀ id ∈ ids, asU32 id = id := fun id hid => Nat.mod_eq_of_lt (h id hid)
  rw [List.map_congr_left hid]
  exact List.map_id ids

/-- All strings of a thread are numbered in its table. -/
theorem segLocalRemaps_eq {dicts : List (List Text)} (h : dicts.flatten.length < 2 ^ 32) :
    (prePassOf dicts).segLocalRemaps =
      dicts.map fun entries => entries.map (numberIn (prePassOf dicts).localEntries) := by
  show (internLists [] dicts).2.map (List.map asU32) = dicts.map fun entries =>
    entries.map (numberIn (internLists [] dicts).1)
  rw [internLists_snd, List.map_map]
  apply List.map_congr_left
  intro entries hentries
  show (entries.map (numberIn (internLists [] dicts).1)).map asU32 = _
  apply map_asU32
  intro id hid
  obtain ⟨entry, hentry, rfl⟩ := List.mem_map.mp hid
  have hmem : entry ∈ (internLists [] dicts).1 :=
    (mem_internLists [] dicts entry).mpr (Or.inr (List.mem_flatten_of_mem hentries hentry))
  calc numberIn (internLists [] dicts).1 entry < (internLists [] dicts).1.length :=
        numberIn_lt hmem
    _ ≤ dicts.flatten.length := length_internLists_le dicts
    _ < 2 ^ 32 := h

/-- A thread's numbers, looked up in the map to the merged table. -/
theorem rewriteIds_prePassOf {dicts : List (List Text)} (h : dicts.flatten.length < 2 ^ 32)
    (merged : List Text) :
    rewriteIds ((prePassOf dicts).localEntries.map (numberIn merged)) (prePassOf dicts).segLocalRemaps =
      some (dicts.map fun entries => entries.map (numberIn merged)) := by
  rw [segLocalRemaps_eq h, rewriteIds, List.mapM_map]
  refine mapM_eq_pure fun entries hentries => ?_
  show (entries.map (numberIn (prePassOf dicts).localEntries)).mapM _ = _
  rw [List.mapM_map]
  refine mapM_eq_pure fun entry hentry => ?_
  refine numberIn_via ?_
  exact (mem_internLists [] dicts entry).mpr (Or.inr (List.mem_flatten_of_mem hentries hentry))

def mergedTable (dictChunks : List (List (List Text))) : List Text :=
  (internLists [] (dictChunks.map fun dicts => (prePassOf dicts).localEntries)).1

theorem mem_mergedTable (dictChunks : List (List (List Text))) (v : Text) :
    v ∈ mergedTable dictChunks ↔ v ∈ dictChunks.flatten.flatten := by
  rw [mergedTable, mem_internLists]
  constructor
  · rintro (hnil | hmem)
    · cases hnil
    · obtain ⟨table, htable, hv⟩ := List.mem_flatten.mp hmem
      obtain ⟨dicts, hdicts, rfl⟩ := List.mem_map.mp htable
      rcases (mem_internLists [] dicts v).mp hv with hnil | hv
      · cases hnil
      · obtain ⟨entries, hentries, hv⟩ := List.mem_flatten.mp hv
        exact List.mem_flatten_of_mem (List.mem_flatten_of_mem hdicts hentries) hv
  · intro hv
    obtain ⟨entries, hentries, hv⟩ := List.mem_flatten.mp hv
    obtain ⟨dicts, hdicts, hentries⟩ := List.mem_flatten.mp hentries
    refine Or.inr (List.mem_flatten_of_mem (List.mem_map_of_mem hdicts) ?_)
    exact (mem_internLists [] dicts v).mpr (Or.inr (List.mem_flatten_of_mem hentries hv))

theorem nodup_mergedTable (dictChunks : List (List (List Text))) :
    (mergedTable dictChunks).Nodup :=
  nodup_internLists List.nodup_nil _

theorem length_mergedTable_le (dictChunks : List (List (List Text))) :
    (mergedTable dictChunks).length ≤ dictChunks.flatten.flatten.length := by
  apply List.Subperm.length_le
  apply (nodup_mergedTable dictChunks).subperm
  exact fun v hv => (mem_mergedTable dictChunks v).mp hv

/-- Each thread's map, from its own numbers to those of the merged table. -/
theorem threadToGlobal_eq {dictChunks : List (List (List Text))}
    (h : dictChunks.flatten.flatten.length < 2 ^ 32) :
    (internLists [] (dictChunks.map fun dicts => (prePassOf dicts).localEntries)).2.map
        (List.map asU32) =
      dictChunks.map fun dicts =>
        (prePassOf dicts).localEntries.map (numberIn (mergedTable dictChunks)) := by
  rw [internLists_snd, List.map_map, List.map_map]
  apply List.map_congr_left
  intro dicts hdicts
  show ((prePassOf dicts).localEntries.map (numberIn (mergedTable dictChunks))).map asU32 = _
  apply map_asU32
  intro id hid
  obtain ⟨entry, hentry, rfl⟩ := List.mem_map.mp hid
  have hmem : entry ∈ mergedTable dictChunks :=
    (mem_internLists [] _ entry).mpr (Or.inr
      (List.mem_flatten_of_mem (List.mem_map_of_mem hdicts) hentry))
  calc numberIn (mergedTable dictChunks) entry < (mergedTable dictChunks).length :=
        numberIn_lt hmem
    _ ≤ dictChunks.flatten.flatten.length := length_mergedTable_le dictChunks
    _ < 2 ^ 32 := h

/-- Phase 3 over all threads. -/
theorem mapM_rewriteIds {dictChunks : List (List (List Text))}
    (h : dictChunks.flatten.flatten.length < 2 ^ 32) (merged : List Text) :
    ((dictChunks.map prePassOf).zip (dictChunks.map fun dicts =>
        (prePassOf dicts).localEntries.map (numberIn merged))).mapM
      (fun thread => rewriteIds thread.2 thread.1.segLocalRemaps) =
      some (dictChunks.map fun dicts => dicts.map fun entries =>
        entries.map (numberIn merged)) := by
  rw [List.zip_map', List.mapM_map]
  refine mapM_eq_pure fun dicts hdicts => ?_
  apply rewriteIds_prePassOf
  obtain ⟨before, after, rfl⟩ := List.append_of_mem hdicts
  simp only [List.flatten_append, List.flatten_cons, List.length_append] at h
  omega

/-- The three phases put together: each entry's number in one table of all strings. -/
theorem specRemap_spec {lz4 : Lz4Flex} {nWorkers : ℕ} {segments : List Blobs} {spec : AggExecSpec}
    {remap : DictDistinctRemap} (h : specRemap lz4 nWorkers segments spec = some (some remap)) :
    ∃ (placed : List (List Text)) (table : List Text),
      segments.mapM (segmentEntries lz4 spec.colIdx.toNat) = some placed ∧
      table.Nodup ∧ (∀ v, v ∈ table ↔ v ∈ placed.flatten) ∧
      remap = { globalCount := table.length,
                perSegment := placed.map fun entries => entries.map (numberIn table) } := by
  unfold specRemap at h
  split_ifs at h with htype htext hcol
  · cases h
  · cases h
  · cases h
  · obtain ⟨eligible, heligible, h⟩ := Option.bind_eq_some_iff.mp h
    cases eligible with
    | false => cases h
    | true =>
        rw [if_neg (by decide)] at h
        obtain ⟨locals, hlocals, h⟩ := Option.bind_eq_some_iff.mp h
        have hpos : 0 < max (divCeil segments.length (max nWorkers 1)) 1 :=
          lt_max_of_lt_right Nat.zero_lt_one
        obtain ⟨dictChunks, hdicts, rfl⟩ := mapM_localPrePass hlocals
        rw [flatten_chunks hpos] at hdicts
        have hgate : 0 + dictChunks.flatten.flatten.length ≤ phaseDMaxDictSizeSum :=
          length_flatten_le (Nat.zero_le _) heligible hdicts
        have hsmall : phaseDMaxDictSizeSum < 2 ^ 32 := by decide
        have htotal : dictChunks.flatten.flatten.length < 2 ^ 32 := by omega
        have hcount : asU32 (mergedTable dictChunks).length = (mergedTable dictChunks).length :=
          Nat.mod_eq_of_lt ((length_mergedTable_le dictChunks).trans_lt htotal)
        have hentries : (dictChunks.map prePassOf).map LocalPrePass.localEntries =
            dictChunks.map fun dicts => (prePassOf dicts).localEntries := List.map_map
        refine ⟨_, mergedTable dictChunks, hdicts, nodup_mergedTable _, mem_mergedTable _, ?_⟩
        simp only [hentries, threadToGlobal_eq htotal] at h
        rw [← mergedTable, hcount] at h
        split_ifs at h with hzero hmany
        · cases h
        · cases h
        obtain ⟨globalChunks, hglobal, h⟩ := Option.bind_eq_some_iff.mp h
        rw [mapM_rewriteIds htotal] at hglobal
        cases hglobal
        cases h
        rw [List.map_flatten]

/-! ## A column's own dictionaries -/

def dictionaryOf (lz4 : Lz4Flex) (blob : List UInt8) : Option (List Text) := do
  let cc ← CompressedColumn.fromBytes blob
  if cc.typeTag = .dictionary ∨ cc.typeTag = .dictionaryLz4 then blobEntries lz4 blob else none

/-- The entries of the dictionary of a column in a segment: its blob is in the column's slot.
A column of the segment-by values and one added later have no slot. -/
def ownEntries (lz4 : Lz4Flex) (blobIdx : List (Option ℕ)) (colIdx : ℕ) (blobs : Blobs) :
    List Text :=
  ((blobIdx[colIdx]?.join).bind fun slot => (blobs[slot]?).bind (dictionaryOf lz4)).getD []

def entryAt (dicts : List (List Text)) (seg entry : ℕ) : Option Text :=
  (dicts[seg]?).bind (·[entry]?)

def groupStrings (own : List (List Text)) (workers : List (List (ℕ × ℕ))) : Finset Text :=
  (workers.flatten.filterMap fun row => entryAt own row.1 row.2).toFinset

/-- The ids count the distinct strings of the dictionaries. -/
structure Numbers (own : List (List Text)) (remap : DictDistinctRemap) : Prop where
  shape : remap.perSegment.map List.length = own.map List.length
  same : ∀ s i s' i' v v' id id', entryAt own s i = some v → entryAt own s' i' = some v' →
    remap.idAt s i = some id → remap.idAt s' i' = some id' → (id = id' ↔ v = v')
  below : ∀ s i id, remap.idAt s i = some id → id < remap.globalCount
  used : ∀ id, id < remap.globalCount → ∃ s i, remap.idAt s i = some id
  counts : ∀ workers : List (List (ℕ × ℕ)),
    (∀ row ∈ workers.flatten, (entryAt own row.1 row.2).isSome = true) →
      (groupBits remap workers).countOnes = (groupStrings own workers).card

/-- As many entries in each segment, and the same entries equal to one another. -/
def SamePattern (own placed : List (List Text)) : Prop :=
  own.map List.length = placed.map List.length ∧
    ∀ s i s' i', entryAt own s i = entryAt own s' i' ↔ entryAt placed s i = entryAt placed s' i'

theorem isSome_entryAt_iff (dicts : List (List Text)) (s i : ℕ) :
    (entryAt dicts s i).isSome = true ↔ ∃ n, (dicts.map List.length)[s]? = some n ∧ i < n := by
  rw [entryAt, List.getElem?_map]
  cases dicts[s]? with
  | none => simp
  | some entries => simp

theorem isSome_entryAt_congr {own placed : List (List Text)}
    (h : own.map List.length = placed.map List.length) (s i : ℕ) :
    (entryAt own s i).isSome = true ↔ (entryAt placed s i).isSome = true := by
  rw [isSome_entryAt_iff, isSome_entryAt_iff, h]

/-- Rows that one map tells apart as another does have as many values under both. -/
theorem card_filterMap_congr {ρ β γ : Type*} [DecidableEq β] [DecidableEq γ] {f : ρ → Option β}
    {g : ρ → Option γ} {rows : List ρ} (hsome : ∀ r ∈ rows, (f r).isSome = (g r).isSome)
    (hsame : ∀ r ∈ rows, ∀ r' ∈ rows, f r = f r' ↔ g r = g r') :
    (rows.filterMap f).toFinset.card = (rows.filterMap g).toFinset.card := by
  induction rows with
  | nil => rfl
  | cons r rows ih =>
      have hrest := ih (fun r' hr' => hsome r' (List.mem_cons_of_mem r hr'))
        (fun a ha b hb => hsame a (List.mem_cons_of_mem r ha) b (List.mem_cons_of_mem r hb))
      have hhead := hsome r List.mem_cons_self
      cases hf : f r with
      | none =>
          have hg : g r = none := by simpa [hf] using hhead.symm
          rw [List.filterMap_cons_none hf, List.filterMap_cons_none hg, hrest]
      | some b =>
          obtain ⟨c, hg⟩ : ∃ c, g r = some c := Option.isSome_iff_exists.mp (by simp [← hhead, hf])
          have hmem : b ∈ rows.filterMap f ↔ c ∈ rows.filterMap g := by
            rw [List.mem_filterMap, List.mem_filterMap]
            refine exists_congr fun r' => and_congr_right fun hr' => ?_
            rw [← hf, ← hg, eq_comm, hsame r List.mem_cons_self r' (List.mem_cons_of_mem r hr'),
              eq_comm]
          rw [List.filterMap_cons_some hf, List.filterMap_cons_some hg, List.toFinset_cons,
            List.toFinset_cons]
          by_cases hb : b ∈ rows.filterMap f
          · rw [Finset.insert_eq_of_mem (List.mem_toFinset.mpr hb),
              Finset.insert_eq_of_mem (List.mem_toFinset.mpr (hmem.mp hb)), hrest]
          · rw [Finset.card_insert_of_notMem fun h => hb (List.mem_toFinset.mp h),
              Finset.card_insert_of_notMem fun h => hb (hmem.mpr (List.mem_toFinset.mp h)), hrest]

section numbers

variable {own placed : List (List Text)} {table : List Text}

def remapOf (placed : List (List Text)) (table : List Text) : DictDistinctRemap where
  globalCount := table.length
  perSegment := placed.map fun entries => entries.map (numberIn table)

theorem idAt_remapOf (placed : List (List Text)) (table : List Text) (s i : ℕ) :
    (remapOf placed table).idAt s i = (entryAt placed s i).map (numberIn table) := by
  rw [DictDistinctRemap.idAt, entryAt, remapOf, List.getElem?_map]
  cases placed[s]? with
  | none => rfl
  | some entries => exact List.getElem?_map

theorem mem_of_entryAt {s i : ℕ} {v : Text} (h : entryAt placed s i = some v) :
    v ∈ placed.flatten := by
  obtain ⟨entries, hentries, hv⟩ := Option.bind_eq_some_iff.mp h
  exact List.mem_flatten_of_mem (List.mem_of_getElem? hentries) (List.mem_of_getElem? hv)

theorem exists_entryAt {v : Text} (h : v ∈ placed.flatten) : ∃ s i, entryAt placed s i = some v := by
  obtain ⟨entries, hentries, hv⟩ := List.mem_flatten.mp h
  obtain ⟨s, hs⟩ := List.getElem?_of_mem hentries
  obtain ⟨i, hi⟩ := List.getElem?_of_mem hv
  exact ⟨s, i, by rw [entryAt, hs, Option.bind_some, hi]⟩

variable (hnodup : table.Nodup) (hmem : ∀ v, v ∈ table ↔ v ∈ placed.flatten)

include hmem in
/-- Two ids are equal exactly if the placed strings are. -/
theorem idAt_eq_iff (s i s' i' : ℕ) :
    (remapOf placed table).idAt s i = (remapOf placed table).idAt s' i' ↔
      entryAt placed s i = entryAt placed s' i' := by
  rw [idAt_remapOf, idAt_remapOf]
  cases hu : entryAt placed s i with
  | none => cases hu' : entryAt placed s' i' <;> simp
  | some u =>
      cases hu' : entryAt placed s' i' with
      | none => simp
      | some u' =>
          simp only [Option.map_some, Option.some.injEq]
          exact numberIn_inj ((hmem u).mpr (mem_of_entryAt hu)) ((hmem u').mpr (mem_of_entryAt hu'))

theorem map_length_remapOf :
    (remapOf placed table).perSegment.map List.length = placed.map List.length := by
  rw [remapOf, List.map_map]
  apply List.map_congr_left
  intro entries _
  exact List.length_map _

include hmem in
theorem idAt_lt {s i id : ℕ} (h : (remapOf placed table).idAt s i = some id) :
    id < table.length := by
  rw [idAt_remapOf] at h
  obtain ⟨v, hv, rfl⟩ := Option.map_eq_some_iff.mp h
  exact numberIn_lt ((hmem v).mpr (mem_of_entryAt hv))

include hnodup hmem in
theorem numbers_iff : Numbers own (remapOf placed table) ↔ SamePattern own placed := by
  constructor
  · intro h
    have hshape : own.map List.length = placed.map List.length :=
      h.shape.symm.trans map_length_remapOf
    refine ⟨hshape, fun s i s' i' => ?_⟩
    have hsome := isSome_entryAt_congr hshape s i
    have hsome' := isSome_entryAt_congr hshape s' i'
    rw [← idAt_eq_iff hmem, idAt_remapOf, idAt_remapOf]
    cases hv : entryAt own s i with
    | none =>
        cases hu : entryAt placed s i with
        | some u => simp [hv, hu] at hsome
        | none => cases hv' : entryAt own s' i' <;> cases hu' : entryAt placed s' i' <;> simp_all
    | some v =>
        obtain ⟨u, hu⟩ := Option.isSome_iff_exists.mp (hsome.mp (by rw [hv]; rfl))
        cases hv' : entryAt own s' i' with
        | none => cases hu' : entryAt placed s' i' <;> simp_all
        | some v' =>
            obtain ⟨u', hu'⟩ := Option.isSome_iff_exists.mp (hsome'.mp (by rw [hv']; rfl))
            rw [hu, hu']
            simp only [Option.map_some, Option.some.injEq]
            symm
            apply h.same s i s' i' v v' _ _ hv hv'
            · rw [idAt_remapOf, hu]
              rfl
            · rw [idAt_remapOf, hu']
              rfl
  · rintro ⟨hshape, hpattern⟩
    have hids : ∀ s i s' i', (remapOf placed table).idAt s i = (remapOf placed table).idAt s' i' ↔
        entryAt own s i = entryAt own s' i' :=
      fun s i s' i' => (idAt_eq_iff hmem s i s' i').trans (hpattern s i s' i').symm
    constructor
    · exact map_length_remapOf.trans hshape.symm
    · intro s i s' i' v v' id id' hv hv' hid hid'
      have hiff := hids s i s' i'
      rwa [hv, hv', hid, hid', Option.some.injEq, Option.some.injEq] at hiff
    · intro s i id hid
      exact idAt_lt hmem hid
    · intro id hid
      obtain ⟨s, i, hentry⟩ := exists_entryAt ((hmem table[id]).mp (List.getElem_mem hid))
      refine ⟨s, i, ?_⟩
      rw [idAt_remapOf, hentry, Option.map_some, numberIn_getElem hnodup hid]
    · intro workers _
      have hround : table.length ≤ 64 * divCeil table.length 64 := by
        unfold divCeil
        omega
      rw [groupBits_eq, Bitset.countOnes_ofFinset, groupStrings]
      · apply card_filterMap_congr
        · intro row _
          rw [idAt_remapOf, Option.isSome_map]
          exact Bool.eq_iff_iff.mpr (isSome_entryAt_congr hshape row.1 row.2).symm
        · intro row _ row' _
          exact hids row.1 row.2 row'.1 row'.2
      · intro id hid
        obtain ⟨row, _, hrow⟩ := List.mem_filterMap.mp (List.mem_toFinset.mp hid)
        exact (idAt_lt hmem hrow).trans_le hround

end numbers

/-- The dictionaries that the pre-pass takes, at the column's position in the table. -/
def placedEntries (lz4 : Lz4Flex) (colIdx : ℕ) (segments : List Blobs) : List (List Text) :=
  segments.map fun blobs => (segmentEntries lz4 colIdx blobs).getD []

theorem placedEntries_of_mapM {lz4 : Lz4Flex} {colIdx : ℕ} {segments : List Blobs}
    {placed : List (List Text)} (h : segments.mapM (segmentEntries lz4 colIdx) = some placed) :
    placed = placedEntries lz4 colIdx segments := by
  induction segments generalizing placed with
  | nil =>
      cases h
      rfl
  | cons blobs segments ih =>
      rw [List.mapM_cons] at h
      obtain ⟨entries, hentries, h⟩ := Option.bind_eq_some_iff.mp h
      obtain ⟨rest, hrest, h⟩ := Option.bind_eq_some_iff.mp h
      cases h
      rw [ih hrest, placedEntries, placedEntries, List.map_cons, hentries]
      rfl

/-- The ids count a column's distinct strings exactly where the blobs at its position in the
table have dictionaries of the same pattern as the blobs in its slot. -/
theorem globalIds_iff {lz4 : Lz4Flex} {nWorkers : ℕ} {segments : List Blobs}
    {aggSpecs : List AggExecSpec} {remaps : List (Option DictDistinctRemap)}
    (hrun : buildDictDistinctRemaps lz4 nWorkers segments aggSpecs = some remaps)
    {specIdx : ℕ} {spec : AggExecSpec} {remap : DictDistinctRemap}
    (hspec : aggSpecs[specIdx]? = some spec) (hremap : remaps[specIdx]? = some (some remap))
    (blobIdx : List (Option ℕ)) :
    Numbers (segments.map (ownEntries lz4 blobIdx spec.colIdx.toNat)) remap ↔
      SamePattern (segments.map (ownEntries lz4 blobIdx spec.colIdx.toNat))
        (placedEntries lz4 spec.colIdx.toNat segments) := by
  have hround : specRemap lz4 nWorkers segments spec = some (some remap) := by
    have hall := forall₂_of_mapM hrun
    obtain ⟨hlen, hget⟩ := List.forall₂_iff_get.mp hall
    obtain ⟨hlt, hspec⟩ := List.getElem?_eq_some_iff.mp hspec
    obtain ⟨hlt', hremap⟩ := List.getElem?_eq_some_iff.mp hremap
    have hat := hget specIdx hlt hlt'
    rwa [List.get_eq_getElem, List.get_eq_getElem, hspec, hremap] at hat
  obtain ⟨placed, table, hplaced, hnodup, hmem, rfl⟩ := specRemap_spec hround
  rw [placedEntries_of_mapM hplaced] at hmem ⊢
  exact numbers_iff hnodup hmem

/-! ## Two text columns behind a segment-by column -/

theorem fromBytes_oneText (v : Text) :
    CompressedColumn.fromBytes (oneText v) = some (dictBlob .dictionary [some v]
      (emit ([v].map utf8Bytes) (presentBytes [some v]))) :=
  CompressedColumn.fromBytes_toBytes (wellFormed_dictBlob .dictionary (by simp) _)

section oneText

variable (lz4 : Lz4Flex) {v : Text} (hv : (utf8Bytes v).length < 2 ^ 30)

include hv

theorem blobEntries_oneText : blobEntries lz4 (oneText v) = some [v] := by
  have hne : oneText v ≠ [] := List.cons_ne_nil _ _
  obtain ⟨hdr, hparse, hdict⟩ := Option.map_eq_some_iff.mp (parseHeader_texts (covers_oneText hv))
  have hplain : dictData lz4 .dictionary (emit ([v].map utf8Bytes) (presentBytes [some v])) =
      some (emit ([v].map utf8Bytes) (presentBytes [some v])) := if_neg (by decide)
  simp only [blobEntries, if_neg hne, fromBytes_oneText, dictBlob, Option.bind_eq_bind,
    Option.bind_some, hplain, hparse, hdict, Option.pure_def]

theorem dictionaryOf_oneText : dictionaryOf lz4 (oneText v) = some [v] := by
  rw [dictionaryOf, fromBytes_oneText]
  exact blobEntries_oneText lz4 hv

end oneText

def countDistinctText (colIdx : ℤ) : AggExecSpec where
  aggType := .countDistinct
  colIdx := colIdx
  colTypeOid := .text
  exprKind := .column
  constOffset := 0
  outputTransform := .none

/-- The blobs of two segments of a table with a segment-by column and two text columns: the
first one has two texts, and the second one has one. -/
def twoSegments : List Blobs :=
  [[oneText ['x'], oneText ['u']], [oneText ['y'], oneText ['u']]]

/-- The pre-pass at the second position takes the second text column's dictionaries. -/
theorem build_twoSegments :
    buildDictDistinctRemaps Literals.lz4 1 twoSegments [countDistinctText 1] =
      some [some { globalCount := 1, perSegment := [[0], [0]] }] := by
  have heligible : eligibleFrom 1 0 twoSegments = some true := by decide +kernel
  have hentries : twoSegments.mapM (segmentEntries Literals.lz4 1) = some [[['u']], [['u']]] := by
    have hu : blobEntries Literals.lz4 (oneText ['u']) = some [['u']] :=
      blobEntries_oneText Literals.lz4 (by decide)
    simp [twoSegments, segmentEntries, hu]
  have hlocal : localPrePass Literals.lz4 1 twoSegments =
      some (prePassOf [[['u']], [['u']]]) := by
    rw [localPrePass, hentries]
    rfl
  have hchunks : chunks (max (divCeil twoSegments.length (max 1 1)) 1) twoSegments =
      [twoSegments] := rfl
  have hround : specRemap Literals.lz4 1 twoSegments (countDistinctText 1) =
      some (some { globalCount := 1, perSegment := [[0], [0]] }) := by
    rw [specRemap, if_neg (by decide), if_neg (by decide), if_neg (by decide)]
    show (eligibleFrom 1 0 twoSegments).bind _ = _
    rw [heligible, Option.bind_some, if_neg (by decide)]
    show ((chunks (max (divCeil twoSegments.length (max 1 1)) 1) twoSegments).mapM
      (localPrePass Literals.lz4 1)).bind _ = _
    rw [hchunks, List.mapM_cons, hlocal]
    decide +kernel
  rw [buildDictDistinctRemaps, List.mapM_cons, hround]
  rfl

/-- The slots of the table's columns. -/
def behindSegmentBy : List (Option ℕ) := [none, some 0, some 1]

theorem own_twoSegments :
    twoSegments.map (ownEntries Literals.lz4 behindSegmentBy 1) = [[['x']], [['y']]] := by
  have hx : dictionaryOf Literals.lz4 (oneText ['x']) = some [['x']] :=
    dictionaryOf_oneText Literals.lz4 (by decide)
  have hy : dictionaryOf Literals.lz4 (oneText ['y']) = some [['y']] :=
    dictionaryOf_oneText Literals.lz4 (by decide)
  simp [twoSegments, ownEntries, behindSegmentBy, hx, hy]

/-- Where the text columns come first, the second one is in the slot of its position. -/
theorem globalIds_twoSegments :
    Numbers (twoSegments.map (ownEntries Literals.lz4 [some 0, some 1] 1))
        { globalCount := 1, perSegment := [[0], [0]] } ↔
      SamePattern (twoSegments.map (ownEntries Literals.lz4 [some 0, some 1] 1))
        (placedEntries Literals.lz4 1 twoSegments) :=
  @globalIds_iff _ _ _ _ _ build_twoSegments 0 (countDistinctText 1) _ rfl rfl _

/-- Behind a segment-by column the first text column's two texts get one id. -/
theorem not_numbers_behind_segmentBy :
    ¬ ∀ (lz4 : Lz4Flex) (nWorkers : ℕ) (segments : List Blobs) (aggSpecs : List AggExecSpec)
      (remaps : List (Option DictDistinctRemap)) (specIdx : ℕ) (spec : AggExecSpec)
      (remap : DictDistinctRemap) (blobIdx : List (Option ℕ)),
      buildDictDistinctRemaps lz4 nWorkers segments aggSpecs = some remaps →
        aggSpecs[specIdx]? = some spec → remaps[specIdx]? = some (some remap) →
          Numbers (segments.map (ownEntries lz4 blobIdx spec.colIdx.toNat)) remap := by
  intro h
  have hnumbers := h Literals.lz4 1 twoSegments [countDistinctText 1] _ 0 (countDistinctText 1) _
    behindSegmentBy build_twoSegments rfl rfl
  have hsame := hnumbers.same 0 0 1 0 ['x'] ['y'] 0 0
  rw [show (countDistinctText 1).colIdx.toNat = 1 from rfl, own_twoSegments] at hsame
  exact absurd ((hsame rfl rfl rfl rfl).mp rfl) (by decide)

end DeltaX.Agg.DictDistinct
