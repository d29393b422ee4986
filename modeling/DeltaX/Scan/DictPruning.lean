import DeltaX.Codec.CompressedColumn
import DeltaX.Codec.DictionaryRows
import DeltaX.Scan.LikeExact
/-!
# Pruning by a dictionary

A text column of low cardinality holds each of its texts once.  Where no text of a segment's
dictionary passes a qual, no row does, and the segment is not read.  The check looks into the
blob itself: the header, the NULL bitmap, and the entries.
-/

namespace DeltaX.Scan.DictPruning

open Column MinMax Codec Codec.Dictionary Support.LittleEndian Support.ByteSlices Support.Utf8

/-! ## The check -/

/-- `DictCheck`, with what the entries are compared with. -/
inductive DictCheck
  | like (strategy : LikeStrategy)
  | notLike (strategy : LikeStrategy)
  | eq (c : Text)
  | ne (c : Text)
deriving DecidableEq, Repr

def dictCheckOf (bq : PlanQual) : Option DictCheck :=
  match bq.op with
  | .like => bq.likeStrategy.map .like
  | .notLike => bq.likeStrategy.map .notLike
  | .eq => bq.textConst.map .eq
  | .ne => bq.textConst.map .ne
  | _ => none

def DictCheck.passes : DictCheck → Text → Bool
  | like strategy, text => likeStrategyMatches strategy text
  | notLike strategy, text => !likeStrategyMatches strategy text
  | eq c, text => text = c
  | ne c, text => text ≠ c

/-- `<>` is looked at only where the dictionary has one entry at most. -/
def DictCheck.mayPrune (check : DictCheck) (data : List UInt8) : Bool :=
  match check with
  | ne _ => ((leAt 4 data 0).map fun dictSize => decide (dictSize ≤ 1)).getD false
  | _ => true

def dictData (lz4 : Lz4Flex) (typeTag : CompressionType) (data : List UInt8) :
    Option (List UInt8) :=
  if typeTag = .dictionaryLz4 then normalizeLz4 lz4 data else some data

/-- The round of the loop for a blob: no row can pass.  A panic is `none`. -/
def blobSkippable (lz4 : Lz4Flex) (check : DictCheck) (blob : List UInt8) : Option Bool :=
  if blob.length < 6 then some false
  else do
    let tag ← blob[0]?
    let typeTag ← CompressionType.fromU8 tag
    if typeTag ≠ .dictionary ∧ typeTag ≠ .dictionaryLz4 then some false
    else do
      let cc ← CompressedColumn.fromBytes blob
      if check.mayPrune cc.data then do
        let plain ← dictData lz4 typeTag cc.data
        let hdr ← parseHeader plain
        return !hdr.dict.any check.passes
      else some false

def segmentSkippableByDict (lz4 : Lz4Flex) (blobIdxMap : List (Option ℕ))
    (compressedBlobs : List (List UInt8)) : List PlanQual → Option Bool
  | [] => some false
  | bq :: batchQuals =>
      match dictCheckOf bq, blobIdxMap[bq.colIdx]?.join with
      | some check, some blobIdx => do
          let blob ← compressedBlobs[blobIdx]?
          let skip ← blobSkippable lz4 check blob
          if skip then some true
          else segmentSkippableByDict lz4 blobIdxMap compressedBlobs batchQuals
      | _, _ => segmentSkippableByDict lz4 blobIdxMap compressedBlobs batchQuals

/-! ## Quals on texts -/

inductive TextCondition
  | eq (c : Text)
  | ne (c : Text)
  | like (pattern : Text)
  | notLike (pattern : Text)
  | inList (cs : List Text)
deriving DecidableEq, Repr

def TextCondition.Holds : TextCondition → Text → Prop
  | eq c, v => v = c
  | ne c, v => v ≠ c
  | like pattern, v => SqlLike v pattern
  | notLike pattern, v => ¬ SqlLike v pattern
  | inList cs, v => v ∈ cs

structure TextQual where
  colIdx : ℕ
  typeOid : TypeOid
  condition : TextCondition

def TextQual.plan (q : TextQual) : PlanQual :=
  let base := PlanQual.ofColumn q.colIdx q.typeOid
  match q.condition with
  | .eq c => { base with op := .eq, textConst := some c }
  | .ne c => { base with op := .ne, textConst := some c }
  | .like pattern => { base with op := .like, likeStrategy := some (compileLikePattern pattern) }
  | .notLike pattern =>
      { base with op := .notLike, likeStrategy := some (compileLikePattern pattern) }
  | .inList cs => { base with op := .inList, inListText := some cs }

abbrev Row : Type := ℕ → Option Text

def Satisfies (quals : List TextQual) (row : Row) : Prop :=
  ∀ q ∈ quals, ∃ v, row q.colIdx = some v ∧ q.condition.Holds v

/-! ## Segments -/

def presentBytes (column : List (Option Text)) : List Str := column.reduceOption.map utf8Bytes

/-- A dictionary blob of a column around its payload. -/
def dictBlob (typeTag : CompressionType) (column : List (Option Text)) (data : List UInt8) :
    CompressedColumn where
  typeTag := typeTag
  rowCount := column.length
  nullBitmap := (extractNulls column).2
  data := data

/-- What a blob may be of the texts of a column: a dictionary with any entries that cover them,
plain or compressed, or a blob of any other encoding. -/
inductive Stored (lz4 : Lz4Flex) (column : List (Option Text)) : List UInt8 → Prop
  | plain {entries : List Text} (hrows : column.length < 2 ^ 32)
      (hcovers : Covers (entries.map utf8Bytes) (presentBytes column)) :
      Stored lz4 column
        (dictBlob .dictionary column (emit (entries.map utf8Bytes) (presentBytes column))).toBytes
  | compressed {entries : List Text} (hrows : column.length < 2 ^ 32)
      (hcovers : Covers (entries.map utf8Bytes) (presentBytes column))
      (hraw : (entriesBlob (entries.map utf8Bytes)).length < 2 ^ 32)
      (hcompressed :
        (lz4.compressPrependSize (entriesBlob (entries.map utf8Bytes))).length < 2 ^ 32) :
      Stored lz4 column
        (dictBlob .dictionaryLz4 column
          (emitLz4 lz4 (entries.map utf8Bytes) (presentBytes column))).toBytes
  | compressedEmpty (hrows : column.length < 2 ^ 32) (hnone : column.reduceOption = []) :
      Stored lz4 column (dictBlob .dictionaryLz4 column (encodeLz4 lz4 [])).toBytes
  | other {blob : List UInt8}
      (h : ∀ tag, blob[0]? = some tag →
        tag ≠ CompressionType.dictionary.toU8 ∧ tag ≠ CompressionType.dictionaryLz4.toU8) :
      Stored lz4 column blob

/-- The texts of a row are below PostgreSQL's limit of 1 GB. -/
def Storable (row : Row) : Prop := ∀ ci v, row ci = some v → (utf8Bytes v).length < 2 ^ 30

/-- A segment: its rows, where the blob of each column is, and the blobs. -/
structure Segment (lz4 : Lz4Flex) where
  rows : List Row
  blobIdx : List (Option ℕ)
  blobs : List (List UInt8)
  storable : ∀ row ∈ rows, Storable row
  stored : ∀ ci idx, blobIdx[ci]?.join = some idx →
    ∃ blob, blobs[idx]? = some blob ∧ Stored lz4 (rows.map fun row => row ci) blob

/-- The segment is skipped only if none of its rows satisfies the conjunction. -/
def Sound (lz4 : Lz4Flex) (quals : List TextQual) : Prop :=
  ∀ segment : Segment lz4,
    segmentSkippableByDict lz4 segment.blobIdx segment.blobs (quals.map TextQual.plan) =
      some true →
    ∀ row ∈ segment.rows, ¬ Satisfies quals row

/-! ## Dictionaries of a column -/

theorem presentBytes_entries {entries : List Text} {column : List (Option Text)}
    (hcovers : Covers (entries.map utf8Bytes) (presentBytes column)) {v : Text}
    (hv : some v ∈ column) : v ∈ entries := by
  have hmem : utf8Bytes v ∈ presentBytes column :=
    List.mem_map_of_mem (List.reduceOption_mem_iff.mpr hv)
  obtain ⟨e, he, heq⟩ := List.mem_map.mp (hcovers.mem _ hmem)
  rwa [← utf8Bytes_injective heq]

theorem wellFormed_dictBlob (typeTag : CompressionType) {column : List (Option Text)}
    (hrows : column.length < 2 ^ 32) (data : List UInt8) :
    (dictBlob typeTag column data).WellFormed where
  rowCount_lt := hrows
  bitmap := length_extractNulls_snd column

theorem parseHeader_texts {entries : List Text} {values : List Str}
    (hcovers : Covers (entries.map utf8Bytes) values) :
    (parseHeader (emit (entries.map utf8Bytes) values)).map DictHeader.dict = some entries := by
  have hview : ∀ e ∈ entries.map utf8Bytes, fromUtf8 e = some ((fromUtf8 e).getD []) := by
    intro e he
    obtain ⟨text, _, rfl⟩ := List.mem_map.mp he
    rw [fromUtf8_utf8Bytes]
    rfl
  rw [parseHeader, parseHeaderWith_emit hcovers hview, Option.map_some, List.map_map]
  congr 1
  have hid : ∀ text ∈ entries, ((fun e => (fromUtf8 e).getD []) ∘ utf8Bytes) text = text := by
    intro text _
    show (fromUtf8 (utf8Bytes text)).getD [] = text
    rw [fromUtf8_utf8Bytes]
    rfl
  rw [List.map_congr_left hid]
  exact List.map_id entries

/-- The loop's answer on a dictionary blob, from its normalized payload. -/
theorem blobSkippable_dict (lz4 : Lz4Flex) (check : DictCheck) {typeTag : CompressionType}
    (htag : typeTag = .dictionary ∨ typeTag = .dictionaryLz4) {column : List (Option Text)}
    (hrows : column.length < 2 ^ 32) {data normal : List UInt8} {entries : List Text}
    (hnormal : dictData lz4 typeTag data = some normal)
    (hentries : (parseHeader normal).map DictHeader.dict = some entries) :
    blobSkippable lz4 check (dictBlob typeTag column data).toBytes =
      some (check.mayPrune data && !entries.any check.passes) := by
  obtain ⟨bytes, hbytes⟩ : ∃ bytes, bytes = (dictBlob typeTag column data).toBytes := ⟨_, rfl⟩
  have hlen : ¬ bytes.length < 6 := by
    rw [hbytes, CompressedColumn.toBytes]
    simp only [List.length_cons, List.length_append, length_toLe]
    omega
  have hhead : bytes[0]? = some typeTag.toU8 := by
    rw [hbytes]
    rfl
  have hread := CompressedColumn.fromBytes_toBytes (wellFormed_dictBlob typeTag hrows data)
  obtain ⟨hdr, hparse, hdict⟩ := Option.map_eq_some_iff.mp hentries
  have hkind : ¬ (typeTag ≠ .dictionary ∧ typeTag ≠ .dictionaryLz4) := by tauto
  rw [← hbytes] at hread ⊢
  simp only [blobSkippable, if_neg hlen, hhead, CompressionType.fromU8_toU8, if_neg hkind, hread,
    bind, Option.bind]
  cases hprune : check.mayPrune data with
  | false => simp [dictBlob, hprune]
  | true =>
      simp only [dictBlob, hprune, if_true, hnormal, hparse, hdict, Bool.true_and]
      rfl

theorem mayPrune_of_size {check : DictCheck} {data : List UInt8} {n : ℕ}
    (hsize : leAt 4 data 0 = some n) (hne : ∀ c, check = .ne c → n ≤ 1) :
    check.mayPrune data = true := by
  cases check with
  | ne c => simp [DictCheck.mayPrune, hsize, hne c rfl]
  | _ => rfl

/-- A blob of another encoding is never a reason to skip. -/
theorem blobSkippable_other (lz4 : Lz4Flex) (check : DictCheck) {blob : List UInt8}
    (h : ∀ tag, blob[0]? = some tag →
      tag ≠ CompressionType.dictionary.toU8 ∧ tag ≠ CompressionType.dictionaryLz4.toU8) :
    blobSkippable lz4 check blob ≠ some true := by
  unfold blobSkippable
  split_ifs with hlen
  · simp
  · cases hhead : blob[0]? with
    | none => simp
    | some tag =>
        obtain ⟨hplain, hcompressed⟩ := h tag hhead
        cases htag : CompressionType.fromU8 tag with
        | none => simp [htag]
        | some typeTag =>
            rw [CompressionType.eq_toU8_of_fromU8 htag] at hplain hcompressed
            have hkind : typeTag ≠ .dictionary ∧ typeTag ≠ .dictionaryLz4 :=
              ⟨fun heq => hplain (heq ▸ rfl), fun heq => hcompressed (heq ▸ rfl)⟩
            simp [htag, hkind]

section Blobs

variable {lz4 : Lz4Flex} (hlz4 : lz4.Inverts) {column : List (Option Text)} {blob : List UInt8}

include hlz4

theorem blobSkippable_sound (h : Stored lz4 column blob) {check : DictCheck}
    (hskip : blobSkippable lz4 check blob = some true) {v : Text} (hv : some v ∈ column) :
    check.passes v = false := by
  cases h with
  | @plain entries hrows hcovers =>
      rw [blobSkippable_dict lz4 check (Or.inl rfl) hrows rfl (parseHeader_texts hcovers)] at hskip
      have hnone := (Bool.and_eq_true_iff.mp (Option.some.inj hskip)).2
      simp only [Bool.not_eq_true', List.any_eq_false] at hnone
      simpa using hnone v (presentBytes_entries hcovers hv)
  | @compressed entries hrows hcovers hraw hcompressed =>
      have hnormal := normalizeLz4_emitLz4 hlz4 hraw hcompressed hcovers.small
        (presentBytes column)
      rw [blobSkippable_dict lz4 check (Or.inr rfl) hrows hnormal
        (parseHeader_texts hcovers)] at hskip
      have hnone := (Bool.and_eq_true_iff.mp (Option.some.inj hskip)).2
      simp only [Bool.not_eq_true', List.any_eq_false] at hnone
      simpa using hnone v (presentBytes_entries hcovers hv)
  | compressedEmpty hrows hnone =>
      have hmem := List.reduceOption_mem_iff.mpr hv
      rw [hnone] at hmem
      cases hmem
  | other h =>
      have hread := blobSkippable_other lz4 check h
      rw [hskip] at hread
      exact absurd rfl hread

end Blobs

/-! ## The loop over the quals -/

section Loop

variable {lz4 : Lz4Flex} {blobIdx : List (Option ℕ)} {blobs : List (List UInt8)}

def RoundSkips (lz4 : Lz4Flex) (blobIdx : List (Option ℕ)) (blobs : List (List UInt8))
    (bq : PlanQual) : Prop :=
  ∃ check idx blob, dictCheckOf bq = some check ∧ blobIdx[bq.colIdx]?.join = some idx ∧
    blobs[idx]? = some blob ∧ blobSkippable lz4 check blob = some true

theorem exists_roundSkips {quals : List PlanQual}
    (h : segmentSkippableByDict lz4 blobIdx blobs quals = some true) :
    ∃ bq ∈ quals, RoundSkips lz4 blobIdx blobs bq := by
  induction quals with
  | nil => cases h
  | cons bq quals ih =>
      rw [segmentSkippableByDict] at h
      split at h
      · rename_i check idx hcheck hidx
        cases hblob : blobs[idx]? with
        | none => simp [hblob] at h
        | some blob =>
            cases hskip : blobSkippable lz4 check blob with
            | none => simp [hblob, hskip] at h
            | some skip =>
                cases skip with
                | true => exact ⟨bq, List.mem_cons_self, check, idx, blob, hcheck, hidx, hblob, hskip⟩
                | false =>
                    obtain ⟨bq', hmem, hround⟩ := ih (by simpa [hblob, hskip] using h)
                    exact ⟨bq', List.mem_cons_of_mem bq hmem, hround⟩
      · obtain ⟨bq', hmem, hround⟩ := ih h
        exact ⟨bq', List.mem_cons_of_mem bq hmem, hround⟩

theorem skippable_of_roundSkips {quals : List PlanQual}
    (hrounds : ∀ bq ∈ quals, ∀ check idx, dictCheckOf bq = some check →
      blobIdx[bq.colIdx]?.join = some idx →
        ∃ blob skip, blobs[idx]? = some blob ∧ blobSkippable lz4 check blob = some skip)
    {bq : PlanQual} (hbq : bq ∈ quals) (hround : RoundSkips lz4 blobIdx blobs bq) :
    segmentSkippableByDict lz4 blobIdx blobs quals = some true := by
  induction quals with
  | nil => cases hbq
  | cons bq' quals ih =>
      have hnext : bq ∈ quals → segmentSkippableByDict lz4 blobIdx blobs quals = some true :=
        fun hmem => ih (fun q hq => hrounds q (List.mem_cons_of_mem bq' hq)) hmem
      rw [segmentSkippableByDict]
      split
      · rename_i check idx hcheck hidx
        obtain ⟨blob, skip, hblob, hskip⟩ := hrounds bq' List.mem_cons_self check idx hcheck hidx
        simp only [hblob, hskip, bind, Option.bind]
        cases skip with
        | true => rfl
        | false =>
            rcases List.mem_cons.mp hbq with rfl | hmem
            · obtain ⟨check', idx', blob', hcheck', hidx', hblob', hskip'⟩ := hround
              rw [hcheck] at hcheck'
              rw [hidx] at hidx'
              cases hcheck'
              cases hidx'
              rw [hblob] at hblob'
              cases hblob'
              rw [hskip] at hskip'
              cases hskip'
            · exact hnext hmem
      · rename_i hnone
        rcases List.mem_cons.mp hbq with rfl | hmem
        · obtain ⟨check, idx, blob, hcheck, hidx, _⟩ := hround
          exact absurd hidx (hnone check idx hcheck)
        · exact hnext hmem

end Loop

/-! ## Soundness -/

def TextCondition.check : TextCondition → Option DictCheck
  | eq c => some (.eq c)
  | ne c => some (.ne c)
  | like pattern => some (.like (compileLikePattern pattern))
  | notLike pattern => some (.notLike (compileLikePattern pattern))
  | inList _ => none

theorem dictCheckOf_plan (q : TextQual) : dictCheckOf q.plan = q.condition.check := by
  obtain ⟨ci, ty, condition⟩ := q
  cases condition <;> rfl

theorem colIdx_plan (q : TextQual) : q.plan.colIdx = q.colIdx := by
  obtain ⟨ci, ty, condition⟩ := q
  cases condition <;> rfl

/-- The matcher that works on bytes agrees with SQL on a text that satisfies a pattern. -/
def TextCondition.Bytewise (condition : TextCondition) (v : Text) : Prop :=
  match condition with
  | like pattern => sqlLikeMatch v pattern = true
  | notLike pattern => sqlLikeMatch v pattern = false
  | _ => True

/-- On every row that satisfies the conjunction the matcher agrees with SQL's LIKE. -/
def BytewiseOnMatches (quals : List TextQual) : Prop :=
  ∀ row, Storable row → Satisfies quals row →
    ∀ q ∈ quals, ∀ v, row q.colIdx = some v → q.condition.Bytewise v

theorem passes_iff_bytewise {condition : TextCondition} {check : DictCheck}
    (hcheck : condition.check = some check) {v : Text} (hv : condition.Holds v) :
    check.passes v = true ↔ condition.Bytewise v := by
  cases condition with
  | eq c =>
      cases hcheck
      exact iff_of_true (decide_eq_true hv) trivial
  | ne c =>
      cases hcheck
      exact iff_of_true (decide_eq_true hv) trivial
  | like pattern =>
      cases hcheck
      rw [DictCheck.passes, likeStrategyMatches_eq]
      rfl
  | notLike pattern =>
      cases hcheck
      rw [DictCheck.passes, likeStrategyMatches_eq, Bool.not_eq_true']
      rfl
  | inList cs => cases hcheck

def oneText (v : Text) : List UInt8 :=
  (dictBlob .dictionary [some v]
    (emit ([v].map utf8Bytes) (presentBytes [some v]))).toBytes

theorem covers_oneText {v : Text} (hv : (utf8Bytes v).length < 2 ^ 30) :
    Covers ([v].map utf8Bytes) (presentBytes [some v]) where
  nodup := List.nodup_singleton _
  small := by simp
  short e he := by
    rw [List.mem_singleton.mp he]
    omega
  mem b hb := hb

theorem blobSkippable_oneText (lz4 : Lz4Flex) (check : DictCheck) {v : Text}
    (hv : (utf8Bytes v).length < 2 ^ 30) :
    blobSkippable lz4 check (oneText v) = some (!check.passes v) := by
  have hcovers := covers_oneText hv
  have hsize : leAt 4 (emit ([v].map utf8Bytes) (presentBytes [some v])) 0 = some 1 :=
    (readHeader hcovers.small _ rfl).1
  have hprune : check.mayPrune (emit ([v].map utf8Bytes) (presentBytes [some v])) = true :=
    mayPrune_of_size hsize fun _ _ => le_rfl
  have hrows : [some v].length < 2 ^ 32 := by simp
  have hnormal : dictData lz4 .dictionary (emit ([v].map utf8Bytes) (presentBytes [some v])) =
      some (emit ([v].map utf8Bytes) (presentBytes [some v])) := rfl
  have hskip := blobSkippable_dict lz4 check (Or.inl rfl) hrows hnormal
    (parseHeader_texts hcovers)
  rw [oneText, hskip, hprune]
  simp

theorem eq_of_lastIdx {ci cj idx : ℕ}
    (h : (List.replicate ci none ++ [some 0])[cj]?.join = some idx) : cj = ci ∧ idx = 0 := by
  rcases Nat.lt_trichotomy cj ci with hlt | rfl | hgt
  · rw [List.getElem?_append_left (by simpa using hlt), List.getElem?_replicate_of_lt hlt] at h
    cases h
  · rw [List.getElem?_append_right (by simp)] at h
    simp only [List.length_replicate, Nat.sub_self] at h
    exact ⟨rfl, (Option.some.inj h).symm⟩
  · rw [List.getElem?_eq_none (by simp; omega)] at h
    cases h

def oneRow (lz4 : Lz4Flex) (row : Row) (hrow : Storable row) (ci : ℕ) (v : Text)
    (hv : row ci = some v) : Segment lz4 where
  rows := [row]
  blobIdx := List.replicate ci none ++ [some 0]
  blobs := [oneText v]
  storable r hr := List.mem_singleton.mp hr ▸ hrow
  stored := by
    intro cj idx hidx
    obtain ⟨rfl, rfl⟩ := eq_of_lastIdx hidx
    refine ⟨oneText v, rfl, ?_⟩
    rw [List.map_singleton, hv]
    exact .plain (by simp) (covers_oneText (hrow cj v hv))

/-- A row that satisfies the conjunction and is told apart by a check is lost. -/
theorem not_sound_of_not_bytewise (lz4 : Lz4Flex) {quals : List TextQual} {row : Row}
    (hrow : Storable row) (hsat : Satisfies quals row) {q : TextQual} (hq : q ∈ quals) {v : Text}
    (hv : row q.colIdx = some v) (hbytes : ¬ q.condition.Bytewise v) : ¬ Sound lz4 quals := by
  intro hsound
  obtain ⟨v', hv', hholds⟩ := hsat q hq
  obtain rfl : v' = v := Option.some.inj (hv'.symm.trans hv)
  cases hcheck : q.condition.check with
  | none =>
      cases hcond : q.condition with
      | inList cs => exact hbytes (hcond ▸ trivial)
      | _ => simp [hcond, TextCondition.check] at hcheck
  | some check =>
      have hfails : check.passes v' = false :=
        Bool.eq_false_iff.mpr fun hpass => hbytes ((passes_iff_bytewise hcheck hholds).mp hpass)
      have hlast : (List.replicate q.colIdx none ++ [some 0])[q.colIdx]?.join = some 0 := by
        rw [List.getElem?_append_right (by simp)]
        simp
      have hround : RoundSkips lz4 (oneRow lz4 row hrow q.colIdx v' hv).blobIdx
          (oneRow lz4 row hrow q.colIdx v' hv).blobs q.plan := by
        refine ⟨check, 0, oneText v', ?_, ?_, rfl, ?_⟩
        · rw [dictCheckOf_plan, hcheck]
        · rw [colIdx_plan]
          exact hlast
        · rw [blobSkippable_oneText lz4 check (hrow q.colIdx v' hv), hfails]
          rfl
      apply hsound (oneRow lz4 row hrow q.colIdx v' hv) _ row List.mem_cons_self hsat
      apply skippable_of_roundSkips _ (List.mem_map_of_mem hq) hround
      intro bq _ check' idx _ hidx
      obtain ⟨_, rfl⟩ := eq_of_lastIdx hidx
      exact ⟨_, _, rfl, blobSkippable_oneText lz4 check' (hrow q.colIdx v' hv)⟩

/-- Patterns without `_` are always sound. -/
theorem bytewiseOnMatches_of_plain {quals : List TextQual}
    (h : ∀ q ∈ quals, ∀ pattern, q.condition = .like pattern ∨ q.condition = .notLike pattern →
      '_' ∉ pattern) : BytewiseOnMatches quals := by
  intro row _ hsat q hq v hv
  obtain ⟨v', hv', hholds⟩ := hsat q hq
  obtain rfl : v' = v := Option.some.inj (hv'.symm.trans hv)
  have hpattern := h q hq
  cases hcond : q.condition with
  | like pattern =>
      rw [hcond] at hholds
      exact (sqlLikeMatch_iff (any_not_mem_likeTokens (hpattern pattern (Or.inl hcond))) v').mpr
        hholds
  | notLike pattern =>
      rw [hcond] at hholds
      have hiff := sqlLikeMatch_iff (any_not_mem_likeTokens (hpattern pattern (Or.inr hcond))) v'
      exact Bool.eq_false_iff.mpr fun hmatch => hholds (hiff.mp hmatch)
  | _ => trivial

end DeltaX.Scan.DictPruning
