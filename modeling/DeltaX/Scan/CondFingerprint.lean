import DeltaX.Scan.BatchFilter
import DeltaX.Scan.CondPayload
import DeltaX.Support.Delimited
import DeltaX.Support.Utf8
/-!
# Fingerprints of filters

A cached selection is found by a hash of the filters.  The bytes that are hashed tell every
part of a filter that its evaluation looks at, so two lists of filters with the same bytes
select the same rows.
-/

namespace DeltaX.Scan.CondCache

open Column MinMax Support.LittleEndian Support.Delimited Support.Utf8

/-! ## Filters -/

def typeOfOid (oid : BitVec 32) : TypeOid :=
  match oid.toNat with
  | 16 => .bool
  | 20 => .int8
  | 21 => .int2
  | 23 => .int4
  | 25 => .text
  | 700 => .float4
  | 701 => .float8
  | 1042 => .bpchar
  | 1043 => .varchar
  | 1082 => .date
  | 1083 => .time
  | 1114 => .timestamp
  | 1184 => .timestamptz
  | n => .other n

def SizedText (s : Text) : Prop := (utf8Bytes s).length < 256 ^ 8

def likePattern : LikeStrategy → Text
  | .contains p | .startsWith p | .endsWith p | .exact p | .general p => p

/-- A `BatchQual`, in 64-bit memory. -/
structure FilterQual extends PlanQual where
  oid : BitVec 32
  typeOid_eq : typeOid = typeOfOid oid
  colIdx_lt : colIdx < 256 ^ 8
  text_sized : ∀ s, textConst = some s → SizedText s
  like_sized : ∀ st, likeStrategy = some st → SizedText (likePattern st)
  ints_sized : ∀ values, inListI64 = some values → values.length < 256 ^ 8
  texts_sized : ∀ values, inListText = some values →
    values.length < 256 ^ 8 ∧ ∀ s ∈ values, SizedText s

inductive TextQualInfo
  | eqNe (colIdx : ℕ) (constStr : Text) (isNe : Bool)
  | like (colIdx : ℕ) (strategy : LikeStrategy) (negate : Bool)
  | inList (colIdx : ℕ) (values : List Text)
deriving DecidableEq, Repr

def TextQualInfo.Sized : TextQualInfo → Prop
  | eqNe colIdx constStr _ => colIdx < 256 ^ 8 ∧ SizedText constStr
  | like colIdx strategy _ => colIdx < 256 ^ 8 ∧ SizedText (likePattern strategy)
  | inList colIdx values => colIdx < 256 ^ 8 ∧ values.length < 256 ^ 8 ∧ ∀ s ∈ values, SizedText s

/-! ## The hashed bytes -/

def fpU64 (v : ℕ) : List UInt8 := toLe 8 v

def fpBytes (s : Text) : List UInt8 := fpU64 (utf8Bytes s).length ++ utf8Bytes s

def fpOptStr (s : Option Text) : List UInt8 := s.elim [0] fun v => 1 :: fpBytes v

def opTag : BatchCompareOp → UInt8
  | .eq => 1
  | .ne => 2
  | .lt => 3
  | .le => 4
  | .gt => 5
  | .ge => 6
  | .like => 7
  | .notLike => 8
  | .inList => 9

def likeTag : LikeStrategy → UInt8
  | .contains _ => 1
  | .startsWith _ => 2
  | .endsWith _ => 3
  | .exact _ => 4
  | .general _ => 5

def fpLike (strategy : Option LikeStrategy) : List UInt8 :=
  strategy.elim [0] fun st => (0x10 ||| likeTag st) :: fpBytes (likePattern st)

def fpInListI64 (list : Option (List Datum)) : List UInt8 :=
  list.elim [0] fun values => 1 :: (fpU64 values.length ++ values.flatMap fun v => fpU64 v.toNat)

def fpInListText (list : Option (List Text)) : List UInt8 :=
  list.elim [0] fun values => 1 :: (fpU64 values.length ++ values.flatMap fpBytes)

def fpConst (q : FilterQual) : List UInt8 :=
  if isBatchComparableType q.typeOid then 1 :: fpU64 q.constDatum.toNat else [0]

def poisoned (q : FilterQual) : Bool :=
  !isBatchComparableType q.typeOid && q.textConst.isNone && q.likeStrategy.isNone &&
    q.inListI64.isNone && q.inListText.isNone

def fpBatchQual (q : FilterQual) : List UInt8 :=
  0x01 :: (fpU64 q.colIdx ++ ([opTag q.op] ++ (fpU64 q.oid.toNat ++ (fpOptStr q.textConst ++
    (fpLike q.likeStrategy ++ (fpInListI64 q.inListI64 ++ (fpInListText q.inListText ++
      fpConst q)))))))

def fpTextQual : TextQualInfo → List UInt8
  | .eqNe colIdx constStr isNe => 0x02 :: (fpU64 colIdx ++ ([if isNe then 1 else 0] ++ fpBytes constStr))
  | .like colIdx strategy negate =>
      0x03 :: (fpU64 colIdx ++ ([if negate then 1 else 0] ++ ([likeTag strategy] ++
        fpBytes (likePattern strategy))))
  | .inList colIdx values =>
      0x04 :: (fpU64 colIdx ++ (fpU64 values.length ++ values.flatMap fpBytes))

/-- What `fingerprint_quals` feeds to the hash; `none` bypasses the cache. -/
def fingerprintBytes (batchQuals : List FilterQual) (textQuals : List TextQualInfo) :
    Option (List UInt8) :=
  if batchQuals = [] ∧ textQuals = [] then none
  else if batchQuals.any poisoned then none
  else some (fpU64 1 ++ (batchQuals.flatMap fpBatchQual ++ textQuals.flatMap fpTextQual))

/-! ## Evaluation -/

abbrev Columns (n : ℕ) : Type := List (Option (Fin n → Option ElemValue))

def wordColumns {n : ℕ} (columns : Columns n) : List (List (Datum × Bool)) :=
  columns.map fun col => col.elim [] fun cells => (List.ofFn cells).map cellWord

/-- A filter on the texts of a column; NULL is never selected. -/
def applyTexts {n : ℕ} (cells : Fin n → Option ElemValue) (accept : Text → Bool)
    (sel : List Bool) : List Bool :=
  List.zipWith (fun s cell => s && (cell.bind ElemValue.asText).any accept) sel (List.ofFn cells)

/-- The filter a text column is decompressed with: the first pattern, else the first
equality, else the first list.  A pattern that was not compiled panics. -/
def textFilter (quals : List PlanQual) (colIdx : ℕ) : Option (Option (Text → Bool)) :=
  match quals.find? fun q => decide (q.colIdx = colIdx ∧ (q.op = .like ∨ q.op = .notLike)) with
  | some q => q.likeStrategy.map fun st => some fun s => likeStrategyMatches st s != decide (q.op = .notLike)
  | none =>
      match quals.find? fun q => decide (q.colIdx = colIdx ∧ q.textConst.isSome ∧
          (q.op = .eq ∨ q.op = .ne)) with
      | some q => some (q.textConst.map fun c s => decide (s = c) != decide (q.op = .ne))
      | none =>
          some ((quals.find? fun q => decide (q.colIdx = colIdx ∧ q.inListText.isSome ∧
            q.op = .inList)).bind fun q => q.inListText.map fun values s => decide (s ∈ values))

/-- The selection of `load_next_segment`; the rows start out selected.  A column that is not
decompressed is `none`: also one the segment does not have, and one of texts it is segmented by. -/
def decompressSelection {n : ℕ} (columns : Columns n) (quals : List PlanQual) :
    Option (List Bool) := do
  let preSelection ← (List.range columns.length).foldlM (fun sel colIdx => do
    let filter ← textFilter quals colIdx
    match filter, columns[colIdx]?.join with
    | some accept, some cells => some (applyTexts cells accept sel)
    | _, _ => some sel) (List.replicate n true)
  evaluateBatchQuals (wordColumns columns) n quals preSelection

def TextQualInfo.accepts : TextQualInfo → Text → Bool
  | eqNe _ constStr isNe, s => decide (s = constStr) != isNe
  | like _ strategy negate, s => likeStrategyMatches strategy s != negate
  | inList _ values, s => decide (s ∈ values)

def TextQualInfo.colIdx : TextQualInfo → ℕ
  | eqNe colIdx _ _ | like colIdx _ _ | inList colIdx _ => colIdx

/-- The selection of a parallel aggregate, over the columns of words and those of texts. -/
def mixedSelection {n : ℕ} (numericCols textCols : Columns n) (batchQuals : List PlanQual)
    (textQuals : List TextQualInfo) : Option (List Bool) := do
  let sel ← evaluateBatchQuals (wordColumns numericCols) n batchQuals (List.replicate n true)
  textQuals.foldlM (fun sel q =>
    (textCols[q.colIdx]?).map fun col => col.elim sel fun cells => applyTexts cells q.accepts sel) sel

/-! ## The bytes tell the filters -/

theorem delimits_u64 : Delimits (fun n => n < 256 ^ 8) fpU64 id :=
  Delimits.of_length (fun a b => by rw [fpU64, fpU64, length_toLe, length_toLe])
    fun _ _ ha hb h => toLe_inj ha hb h

theorem delimits_byte : Delimits (fun _ => True) (fun b : UInt8 => [b]) id :=
  Delimits.of_length (fun _ _ => rfl) fun _ _ _ _ h => (List.cons.inj h).1

theorem delimits_bytes : Delimits SizedText fpBytes id := by
  have h : Delimits SizedText (fun s => fpU64 (utf8Bytes s).length ++ utf8Bytes s)
      (fun s => ((utf8Bytes s).length, s)) := by
    apply (delimits_u64.comp fun s : Text => (utf8Bytes s).length).append
    intro s s' _ _ hlen rest rest' heq
    obtain ⟨hs, hrest⟩ := List.append_inj heq hlen
    exact ⟨utf8Bytes_injective hs, hrest⟩
  exact h.mono (fun _ hs => hs) fun _ _ _ _ hkey => congrArg Prod.snd hkey

theorem delimits_optStr :
    Delimits (fun o => ∀ s, o = some s → SizedText s) fpOptStr id := by
  have h := (delimits_bytes.marked 1).option 0 fun s => ⟨1, _, rfl, by decide⟩
  exact h.mono (fun _ ho => ho) fun _ _ _ _ hkey => by simpa using hkey

theorem likeTag_mem (st : LikeStrategy) : likeTag st ∈ [1, 2, 3, 4, 5] := by
  cases st <;> simp [likeTag]

theorem like_eq_of_tag {st st' : LikeStrategy} (htag : likeTag st = likeTag st')
    (hpattern : likePattern st = likePattern st') : st = st' := by
  cases st <;> cases st' <;> simp_all [likeTag, likePattern]

theorem delimits_likeTag :
    Delimits (fun st => SizedText (likePattern st))
      (fun st => [likeTag st] ++ fpBytes (likePattern st)) id := by
  have h := (delimits_byte.comp likeTag).mono (fun st (_ : SizedText (likePattern st)) => trivial)
    fun _ _ _ _ h => h
  apply (h.append_indep (delimits_bytes.comp likePattern)).mono (fun _ h => h)
  intro st st' _ _ hkey
  exact like_eq_of_tag (congrArg Prod.fst hkey) (congrArg Prod.snd hkey)

theorem delimits_like :
    Delimits (fun o => ∀ st, o = some st → SizedText (likePattern st)) fpLike id := by
  have hzero : (0 : UInt8) ∉ [1, 2, 3, 4, 5].map fun tag : UInt8 => 0x10 ||| tag := by decide
  have hdistinct : ([1, 2, 3, 4, 5].map fun tag : UInt8 => 0x10 ||| tag).Nodup := by decide
  have hmarked : ∀ tag ∈ ([1, 2, 3, 4, 5] : List UInt8), (0x10 ||| tag) ≠ 0 ∧
      ∀ tag' ∈ ([1, 2, 3, 4, 5] : List UInt8), 0x10 ||| tag = 0x10 ||| tag' → tag = tag' := by
    intro tag htag
    exact ⟨fun h => hzero (List.mem_map.mpr ⟨tag, htag, h⟩), fun tag' htag' h =>
      List.inj_on_of_nodup_map hdistinct htag htag' h⟩
  have hstrategy : Delimits (fun st => SizedText (likePattern st))
      (fun st => [0x10 ||| likeTag st] ++ fpBytes (likePattern st)) id := by
    have h := (delimits_byte.comp fun st => 0x10 ||| likeTag st).mono
      (fun st (_ : SizedText (likePattern st)) => trivial) fun _ _ _ _ h => h
    apply (h.append_indep (delimits_bytes.comp likePattern)).mono (fun _ h => h)
    intro st st' _ _ hkey
    exact like_eq_of_tag ((hmarked _ (likeTag_mem st)).2 _ (likeTag_mem st') (congrArg Prod.fst hkey))
      (congrArg Prod.snd hkey)
  have h := hstrategy.option 0 fun st => ⟨_, _, rfl, (hmarked _ (likeTag_mem st)).1⟩
  exact h.mono (fun _ ho => ho) fun _ _ _ _ hkey => by simpa using hkey

theorem delimits_word : Delimits (fun _ => True) (fun v : Datum => fpU64 v.toNat) id := by
  apply (delimits_u64.comp BitVec.toNat).mono (fun v _ => v.isLt)
  intro v w _ _ hkey
  exact BitVec.eq_of_toNat_eq hkey

theorem delimits_inListI64 :
    Delimits (fun o => ∀ values, o = some values → values.length < 256 ^ 8) fpInListI64 id := by
  have h := ((delimits_word.counted delimits_u64).marked 1).option 0 fun values => ⟨1, _, rfl, by decide⟩
  apply h.mono
  · intro o ho values hvalues
    exact ⟨ho values hvalues, fun _ _ => trivial⟩
  · intro a b _ _ hkey
    simpa using hkey

theorem delimits_texts :
    Delimits (fun values : List Text => values.length < 256 ^ 8 ∧ ∀ s ∈ values, SizedText s)
      (fun values => fpU64 values.length ++ values.flatMap fpBytes) id := by
  apply (delimits_bytes.counted delimits_u64).mono (fun _ h => h)
  intro a b _ _ hkey
  simpa using hkey

theorem delimits_inListText :
    Delimits (fun o => ∀ values, o = some values →
      values.length < 256 ^ 8 ∧ ∀ s ∈ values, SizedText s) fpInListText id := by
  have h := (delimits_texts.marked 1).option 0 fun values => ⟨1, _, rfl, by decide⟩
  exact h.mono (fun _ ho => ho) fun _ _ _ _ hkey => by simpa using hkey

/-- A qual without the constant of a type that is not compared by its word. -/
def FilterQual.evaluated (q : FilterQual) : PlanQual :=
  { q.toPlanQual with constDatum := if isBatchComparableType q.typeOid then q.constDatum else 0 }

theorem opTag_injective : Function.Injective opTag := by
  intro op op' h
  cases op <;> cases op' <;> first | rfl | exact absurd h (by decide)

theorem delimits_const : Delimits (fun _ => True) fpConst fun q =>
    if isBatchComparableType q.typeOid then some q.constDatum else none := by
  have h := ((delimits_word.marked 1).option 0 fun _ => ⟨1, _, rfl, by decide⟩).comp
    fun q : FilterQual => if isBatchComparableType q.typeOid then some q.constDatum else none
  have hcode : fpConst = fun q : FilterQual =>
      (if isBatchComparableType q.typeOid then some q.constDatum else none).elim [0]
        fun v => 1 :: fpU64 v.toNat := by
    ext1 q
    unfold fpConst
    split_ifs <;> rfl
  rw [hcode]
  exact h.mono (fun _ _ _ _ => trivial) fun _ _ _ _ hkey => by simpa using hkey

theorem delimits_batchQual : Delimits (fun _ => True) fpBatchQual FilterQual.evaluated := by
  have hcol := (delimits_u64.comp fun q : FilterQual => q.colIdx).mono
    (fun q (_ : True) => q.colIdx_lt) fun _ _ _ _ h => h
  have hop := delimits_byte.comp fun q : FilterQual => opTag q.op
  have hoid := (delimits_u64.comp fun q : FilterQual => q.oid.toNat).mono
    (fun q (_ : True) => q.oid.isLt.trans (by decide)) fun _ _ _ _ h => h
  have htext := (delimits_optStr.comp fun q : FilterQual => q.textConst).mono
    (fun q (_ : True) => q.text_sized) fun _ _ _ _ h => h
  have hlike := (delimits_like.comp fun q : FilterQual => q.likeStrategy).mono
    (fun q (_ : True) => q.like_sized) fun _ _ _ _ h => h
  have hints := (delimits_inListI64.comp fun q : FilterQual => q.inListI64).mono
    (fun q (_ : True) => q.ints_sized) fun _ _ _ _ h => h
  have htexts := (delimits_inListText.comp fun q : FilterQual => q.inListText).mono
    (fun q (_ : True) => q.texts_sized) fun _ _ _ _ h => h
  have h := (hcol.append_indep (hop.append_indep (hoid.append_indep (htext.append_indep
    (hlike.append_indep (hints.append_indep (htexts.append_indep delimits_const))))))).marked 1
  apply h.mono (fun _ h => h)
  intro q q' _ _ hkey
  simp only [Prod.mk.injEq, id_eq] at hkey
  obtain ⟨hcol, hop, hoid, htext, hlike, hints, htexts, hconst⟩ := hkey
  have htype : q.typeOid = q'.typeOid := by
    rw [q.typeOid_eq, q'.typeOid_eq, BitVec.eq_of_toNat_eq hoid]
  have hword : (if isBatchComparableType q.typeOid then q.constDatum else 0) =
      if isBatchComparableType q'.typeOid then q'.constDatum else 0 := by
    rw [htype] at hconst ⊢
    split_ifs at hconst ⊢
    · exact Option.some.inj hconst
    · rfl
  simp only [FilterQual.evaluated, hcol, opTag_injective hop, hword, htext, hlike, hints, htexts]
  rw [htype]

theorem delimits_flag : Delimits (fun _ => True) (fun b : Bool => [if b then (1 : UInt8) else 0]) id := by
  apply Delimits.of_length (fun _ _ => rfl)
  decide

theorem delimits_textQual : Delimits TextQualInfo.Sized fpTextQual id := by
  intro a b ha hb s t heq
  cases a with
  | eqNe colIdx constStr isNe =>
      cases b with
      | eqNe colIdx' constStr' isNe' =>
          simp only [fpTextQual, List.cons_append, List.append_assoc, List.cons.injEq, true_and] at heq
          obtain ⟨hcol, hflag⟩ := delimits_u64 ha.1 hb.1 heq
          obtain ⟨hne, hconst⟩ := delimits_flag trivial trivial hflag
          obtain ⟨hs, hrest⟩ := delimits_bytes ha.2 hb.2 hconst
          refine ⟨?_, hrest⟩
          rw [show colIdx = colIdx' from hcol, show constStr = constStr' from hs,
            show isNe = isNe' from hne]
      | like | inList => exact absurd (List.cons.inj heq).1 (by decide)
  | like colIdx strategy negate =>
      cases b with
      | like colIdx' strategy' negate' =>
          simp only [fpTextQual, List.cons_append, List.append_assoc, List.cons.injEq, true_and] at heq
          obtain ⟨hcol, hflag⟩ := delimits_u64 ha.1 hb.1 heq
          obtain ⟨hneg, hlike⟩ := delimits_flag trivial trivial hflag
          obtain ⟨hst, hrest⟩ := delimits_likeTag ha.2 hb.2 hlike
          refine ⟨?_, hrest⟩
          rw [show colIdx = colIdx' from hcol, show strategy = strategy' from hst,
            show negate = negate' from hneg]
      | eqNe | inList => exact absurd (List.cons.inj heq).1 (by decide)
  | inList colIdx values =>
      cases b with
      | inList colIdx' values' =>
          simp only [fpTextQual, List.cons_append, List.append_assoc, List.cons.injEq, true_and] at heq
          obtain ⟨hcol, hlist⟩ := delimits_u64 ha.1 hb.1 heq
          rw [← List.append_assoc, ← List.append_assoc] at hlist
          obtain ⟨hvalues, hrest⟩ := delimits_texts ha.2 hb.2 hlist
          refine ⟨?_, hrest⟩
          rw [show colIdx = colIdx' from hcol, show values = values' from hvalues]
      | eqNe | like => exact absurd (List.cons.inj heq).1 (by decide)

/-! ## The bytes tell the selection -/

section evaluated

variable {n : ℕ} (columns : Columns n)

theorem batchFilter_evaluated (q : FilterQual) :
    batchFilter q.toPlanQual = batchFilter q.evaluated := by
  unfold batchFilter FilterQual.evaluated
  cases q.op <;> cases q.typeOid <;> rfl

theorem evaluateBatchQuals_evaluated (currentSegment : List (List (Datum × Bool))) (rowCount : ℕ)
    (quals : List FilterQual) (sel : List Bool) :
    evaluateBatchQuals currentSegment rowCount (quals.map FilterQual.toPlanQual) sel =
      evaluateBatchQuals currentSegment rowCount (quals.map FilterQual.evaluated) sel := by
  have hround : ∀ (sel : List Bool) (q : FilterQual),
      applyQual currentSegment sel q.toPlanQual = applyQual currentSegment sel q.evaluated := by
    intro sel q
    unfold applyQual
    rw [batchFilter_evaluated]
    rfl
  unfold evaluateBatchQuals
  simp only [List.foldlM_map, hround, List.map_eq_nil_iff]

theorem textFilter_evaluated (quals : List FilterQual) (colIdx : ℕ) :
    textFilter (quals.map FilterQual.toPlanQual) colIdx =
      textFilter (quals.map FilterQual.evaluated) colIdx := by
  have hplain : ∀ p : PlanQual → Bool, (quals.map FilterQual.toPlanQual).find? p =
      (quals.find? fun q => p q.toPlanQual).map FilterQual.toPlanQual := fun p => List.find?_map
  have hcanon : ∀ p : PlanQual → Bool, (∀ q : FilterQual, p q.toPlanQual = p q.evaluated) →
      (quals.map FilterQual.evaluated).find? p =
        (quals.find? fun q => p q.toPlanQual).map FilterQual.evaluated := by
    intro p hp
    simp only [hp]
    exact List.find?_map
  unfold textFilter
  rw [hplain, hplain, hplain, hcanon _ fun _ => rfl, hcanon _ fun _ => rfl, hcanon _ fun _ => rfl]
  generalize (quals.find? fun q => decide (q.colIdx = colIdx ∧ (q.op = .like ∨ q.op = .notLike))) =
    pattern
  generalize (quals.find? fun q => decide (q.colIdx = colIdx ∧ q.textConst.isSome ∧
    (q.op = .eq ∨ q.op = .ne))) = equality
  generalize (quals.find? fun q => decide (q.colIdx = colIdx ∧ q.inListText.isSome ∧
    q.op = .inList)) = list
  cases pattern <;> cases equality <;> cases list <;> rfl

theorem decompressSelection_evaluated (quals : List FilterQual) :
    decompressSelection columns (quals.map FilterQual.toPlanQual) =
      decompressSelection columns (quals.map FilterQual.evaluated) := by
  unfold decompressSelection
  simp only [textFilter_evaluated, evaluateBatchQuals_evaluated]

end evaluated

theorem evaluated_eq_of_bytes {quals quals' : List FilterQual} {texts texts' : List TextQualInfo}
    (htexts : ∀ t ∈ texts, t.Sized) (htexts' : ∀ t ∈ texts', t.Sized) {bytes : List UInt8}
    (h : fingerprintBytes quals texts = some bytes) (h' : fingerprintBytes quals' texts' = some bytes) :
    quals.map FilterQual.evaluated = quals'.map FilterQual.evaluated ∧ texts = texts' := by
  have hitem : Delimits (Sum.elim (fun _ : FilterQual => True) TextQualInfo.Sized)
      (Sum.elim fpBatchQual fpTextQual) (Sum.map FilterQual.evaluated id) := by
    apply delimits_batchQual.sum delimits_textQual
    intro q t rest rest' heq
    cases t <;> exact absurd (List.cons.inj heq).1 (by decide)
  have hne : ∀ item, Sum.elim fpBatchQual fpTextQual item ≠ [] := by
    intro item
    rcases item with q | t
    · exact List.cons_ne_nil _ _
    · cases t <;> exact List.cons_ne_nil _ _
  have hflat : ∀ {quals : List FilterQual} {texts : List TextQualInfo},
      fingerprintBytes quals texts = some bytes →
        bytes = fpU64 1 ++ (quals.map Sum.inl ++ texts.map Sum.inr).flatMap
          (Sum.elim fpBatchQual fpTextQual) := by
    intro quals texts h
    unfold fingerprintBytes at h
    split_ifs at h
    rw [← Option.some.inj h, List.flatMap_append, List.flatMap_map, List.flatMap_map]
    rfl
  have hsized : ∀ {quals : List FilterQual} {texts : List TextQualInfo}, (∀ t ∈ texts, t.Sized) →
      ∀ item ∈ quals.map Sum.inl ++ texts.map Sum.inr,
        Sum.elim (fun _ : FilterQual => True) TextQualInfo.Sized item := by
    intro quals texts htexts item hitem
    rcases List.mem_append.mp hitem with hq | hq
    · obtain ⟨q, -, rfl⟩ := List.mem_map.mp hq
      exact trivial
    · obtain ⟨t, ht, rfl⟩ := List.mem_map.mp hq
      exact htexts t ht
  have hkeys := hitem.stream hne (hsized htexts) (hsized htexts')
    (List.append_cancel_left ((hflat h).symm.trans (hflat h')))
  rw [List.map_append, List.map_append, List.map_map, List.map_map, List.map_map, List.map_map] at hkeys
  constructor
  · have hleft := congrArg (List.filterMap Sum.getLeft?) hkeys
    simpa [List.filterMap_append, List.filterMap_map, Function.comp_def] using hleft
  · have hright := congrArg (List.filterMap Sum.getRight?) hkeys
    simpa [List.filterMap_append, List.filterMap_map, Function.comp_def] using hright

/-- The rows of a conjunction of filters, each on the value of its column. -/
def conjunctionSelects (quals : List PlanQual) (texts : List TextQualInfo)
    (row : ℕ → Option ElemValue) : Bool :=
  quals.all (fun q => q.selects (row q.colIdx)) &&
    texts.all fun t => ((row t.colIdx).bind ElemValue.asText).any t.accepts

theorem selects_evaluated (q : FilterQual) (cell : Option ElemValue) :
    q.toPlanQual.selects cell = q.evaluated.selects cell := by
  have hword : ∀ cmp d, applyBatchFilter q.typeOid cmp q.constDatum d =
      applyBatchFilter q.typeOid cmp q.evaluated.constDatum d := by
    intro cmp d
    unfold FilterQual.evaluated
    cases htype : q.typeOid <;> rfl
  have haccepts : q.toPlanQual.accepts = q.evaluated.accepts := by
    ext1 v
    cases v with
    | text s => rfl
    | datum d =>
        have hop : q.toPlanQual.op.comparison = q.op.comparison := rfl
        have hop' : q.evaluated.op.comparison = q.op.comparison := rfl
        rw [PlanQual.accepts, PlanQual.accepts, hop, hop']
        cases q.op.comparison with
        | none => rfl
        | some cmp => exact hword cmp d
  rw [PlanQual.selects, PlanQual.selects, haccepts]

theorem conjunctionSelects_evaluated (quals : List FilterQual) (texts : List TextQualInfo)
    (row : ℕ → Option ElemValue) :
    conjunctionSelects (quals.map FilterQual.toPlanQual) texts row =
      conjunctionSelects (quals.map FilterQual.evaluated) texts row := by
  unfold conjunctionSelects
  rw [List.all_map, List.all_map]
  exact congrArg (fun p => quals.all p && _) (funext fun q => selects_evaluated q (row q.colIdx))

/-- Filters with the same hashed bytes select the same rows of every segment, and a cached
selection is read back as one with the same rows. -/
theorem condition_cache_sound :
    (∀ (quals quals' : List FilterQual) (texts texts' : List TextQualInfo) (bytes : List UInt8),
      (∀ t ∈ texts, t.Sized) → (∀ t ∈ texts', t.Sized) →
      fingerprintBytes quals texts = some bytes → fingerprintBytes quals' texts' = some bytes →
        (∀ row, conjunctionSelects (quals.map FilterQual.toPlanQual) texts row =
          conjunctionSelects (quals'.map FilterQual.toPlanQual) texts' row) ∧
        ∀ (n : ℕ) (columns textCols : Columns n),
          decompressSelection columns (quals.map FilterQual.toPlanQual) =
            decompressSelection columns (quals'.map FilterQual.toPlanQual) ∧
          mixedSelection columns textCols (quals.map FilterQual.toPlanQual) texts =
            mixedSelection columns textCols (quals'.map FilterQual.toPlanQual) texts') ∧
      ∀ (selection : List Bool) (rowCount : ℕ),
        (encodePayload selection rowCount = none ↔ rowCount = 0 ∨ rowCount > 4294967295 ∨
          (selection ≠ [] ∧ selection.length ≠ rowCount)) ∧
        ∀ bytes, encodePayload selection rowCount = some bytes →
          ∃ cached, decodePayload bytes rowCount = some cached ∧
            ∀ row < rowCount, (cached.Selects row ↔ selection = [] ∨ selection[row]? = some true) := by
  constructor
  · intro quals quals' texts texts' bytes htexts htexts' h h'
    obtain ⟨hquals, rfl⟩ := evaluated_eq_of_bytes htexts htexts' h h'
    refine ⟨fun row => ?_, fun n columns textCols => ⟨?_, ?_⟩⟩
    · rw [conjunctionSelects_evaluated, conjunctionSelects_evaluated, hquals]
    · rw [decompressSelection_evaluated, decompressSelection_evaluated, hquals]
    · rw [mixedSelection, mixedSelection, evaluateBatchQuals_evaluated, evaluateBatchQuals_evaluated,
        hquals]
  · intro selection rowCount
    exact ⟨encodePayload_eq_none_iff selection rowCount, fun bytes h => decodePayload_encodePayload h⟩

/-- `column = 'a'`, with the address of the constant. -/
def textEquality (address : Datum) : FilterQual where
  toPlanQual := { PlanQual.ofColumn 0 .text with constDatum := address, textConst := some ['a'] }
  oid := 25
  typeOid_eq := rfl
  colIdx_lt := show 0 < 256 ^ 8 by decide
  text_sized := by
    intro s hs
    rw [← Option.some.inj hs]
    show (utf8Bytes ['a']).length < 256 ^ 8
    decide
  like_sized := by
    intro st hst
    cases hst
  ints_sized := by
    intro values hvalues
    cases hvalues
  texts_sized := by
    intro values hvalues
    cases hvalues

/-- The same text at two addresses, and a selection of two rows. -/
theorem condition_cache_sound_textEquality :
    decompressSelection [some fun _ : Fin 1 => some (ElemValue.text ['a'])] [(textEquality 1).toPlanQual] =
        decompressSelection [some fun _ : Fin 1 => some (ElemValue.text ['a'])]
          [(textEquality 2).toPlanQual] ∧
      ∃ cached, decodePayload ((encodePayload [true, false] 2).getD []) 2 = some cached := by
  have hnone : ∀ t ∈ ([] : List TextQualInfo), t.Sized := fun _ ht => by cases ht
  have hselect := condition_cache_sound.1 [textEquality 1] [textEquality 2] [] [] _ hnone hnone rfl
    (by decide)
  obtain ⟨cached, hcached, -⟩ := (condition_cache_sound.2 [true, false] 2).2 _ rfl
  exact ⟨(hselect.2 1 _ []).1, cached, hcached⟩

end DeltaX.Scan.CondCache
