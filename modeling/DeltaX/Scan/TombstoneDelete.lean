import DeltaX.Scan.LikeExact
import DeltaX.Scan.WhereGate
import Mathlib.Data.List.DropRight
/-!
# DELETE by tombstones

`dml_matching_offsets` finds the rows of a segment that a DELETE removes: the qual
columns are decoded and every qual is evaluated, a segment-by column on its one
value, a text column on the decoded texts, the others by the batch filter.  What it
returns goes into the tombstone table, where an offset that is there already stays
as it is.
-/

namespace DeltaX.Scan

open Column Schema MinMax Support.KeySpan Support.IeeeOrder Support.Numbering Support.Wildcard

/-! ## Quals -/

def batchQualsTombstoneExact (batchQuals : List PlanQual) : Bool :=
  batchQuals.all fun bq =>
    match bq.op with
    | .lt | .le | .gt | .ge => decide (bq.typeOid ≠ .bool)
    | .inList => !(bq.inListText.isSome && decide (bq.typeOid = .bpchar))
    | _ => true

def evalQualOnSingleValue (stringToDatum : Text → TypeOid → Datum) (bq : PlanQual)
    (value : Option Text) : Option Bool :=
  match value with
  | none => some false
  | some s =>
      if bq.op = .like ∨ bq.op = .notLike then
        bq.likeStrategy.map fun strat =>
          if bq.op = .notLike then !likeStrategyMatches strat s else likeStrategyMatches strat s
      else match bq.inListText, bq.textConst with
        | some list, _ => some (decide (s ∈ list))
        | none, some c =>
            match bq.op with
            | .eq => some (decide (s = c))
            | .ne => some (decide (s ≠ c))
            | _ => none
        | none, none =>
            let datum := stringToDatum s bq.typeOid
            match bq.op.comparison with
            | none => bq.inListI64.map fun values => applyBatchFilterInList values bq.typeOid datum
            | some cmp =>
                if bq.typeOid = .bool ∧ bq.op ≠ .eq ∧ bq.op ≠ .ne then none
                else if isBatchComparableType bq.typeOid then
                  some (applyBatchFilter bq.typeOid cmp bq.constDatum datum)
                else none

/-- The comparison `apply_text_qual_exact` picks. -/
def textCmp (bq : PlanQual) : Option (Text → Bool) :=
  if bq.op = .like ∨ bq.op = .notLike then
    bq.likeStrategy.map fun strat s =>
      if bq.op = .notLike then !likeStrategyMatches strat s else likeStrategyMatches strat s
  else match bq.inListText, bq.textConst with
    | some list, _ => some fun s => decide (s ∈ list)
    | none, some c =>
        match bq.op with
        | .eq => some fun s => decide (s = c)
        | .ne => some fun s => decide (s ≠ c)
        | _ => none
    | none, none => none

/-! ## The segment -/

/-- What `load_metadata_cached` holds of the table. -/
structure DmlMeta where
  colNames : List Text
  colTypes : List TypeOid
  segmentBy : List Text
  blobIdx : List (Option ℕ)
  missingValues : List (Option ElemValue)

def DmlMeta.typeAt (m : DmlMeta) (ci : ℕ) : TypeOid := m.colTypes.getD ci (.other 0)

/-- The place of a segment-by column among the segment values. -/
def DmlMeta.segValIdx (m : DmlMeta) (ci : ℕ) : Option ℕ :=
  ((number (fun name => decide (name ∈ m.segmentBy)) 0 m.colNames)[ci]?).join

/-- A segment with its blobs decoded, and the offsets that are tombstoned. -/
structure DmlSegment where
  rowCount : ℕ
  segmentValues : List (Option Text)
  blobs : List (List (Option ElemValue))
  tombstones : List ℕ

section matching

variable (stringToDatum : Text → TypeOid → Datum) (m : DmlMeta) (seg : DmlSegment)

def segbyValue (ci : ℕ) : Option (Option Text) :=
  (m.segValIdx ci).map fun sv => seg.segmentValues[sv]?.join

def decodedColumn (ci : ℕ) : Option (List (Option ElemValue)) :=
  match m.blobIdx[ci]?.join with
  | some slot =>
      match seg.blobs[slot]? with
      | some datums => if datums.length = seg.rowCount then some datums else none
      | none => none
  | none => some (List.replicate seg.rowCount (m.missingValues[ci]?.join))

/-- One qual into the selection vector; NULL rows fail. -/
def andFilter (col : List (Option ElemValue)) (f : ElemValue → Bool) (sel : List Bool) :
    List Bool :=
  List.zipWith (fun s cell => s && cell.any f) sel col

def textHolds (f : Text → Bool) : ElemValue → Bool
  | .text s => f s
  | .datum _ => false

/-- Whether the segment-by quals let the segment through. -/
def segbyPasses : List PlanQual → Option Bool
  | [] => some true
  | bq :: quals =>
      match segbyValue m seg bq.colIdx with
      | some v =>
          match evalQualOnSingleValue stringToDatum bq v with
          | none => none
          | some false => some false
          | some true => segbyPasses quals
      | none => segbyPasses quals

def textQuals : List PlanQual → List Bool → Option (List Bool)
  | [], sel => some sel
  | bq :: quals, sel =>
      if (segbyValue m seg bq.colIdx).isSome then textQuals quals sel
      else if bq.op = .like ∨ bq.op = .notLike ∨ bq.textConst.isSome ∨ bq.inListText.isSome then do
        let f ← textCmp bq
        let col ← decodedColumn m seg bq.colIdx
        textQuals quals (andFilter col (textHolds f) sel)
      else if isBatchComparableType bq.typeOid then textQuals quals sel
      else none

/-- `decoded` as the batch filter sees it; a segment-by column is empty. -/
def decodedWords : List (List (Datum × Bool)) :=
  (List.range m.colNames.length).map fun ci =>
    if (segbyValue m seg ci).isSome then [] else ((decodedColumn m seg ci).getD []).map cellWord

def selectedOffsets (sel : List Bool) : List ℕ :=
  (List.range sel.length).filter fun i => sel.getD i false

def dmlMatchingOffsets (batchQuals : List PlanQual) : Option (List ℕ) :=
  if batchQualsTombstoneExact batchQuals = false then none
  else if seg.rowCount = 0 then some []
  else if batchQuals.any fun bq => decide (m.colNames.length ≤ bq.colIdx) then none
  else if batchQuals.any fun bq =>
      (segbyValue m seg bq.colIdx).isNone && (decodedColumn m seg bq.colIdx).isNone then none
  else do
    let passes ← segbyPasses stringToDatum m seg batchQuals
    if passes = false then some []
    else do
      let sel ← textQuals m seg batchQuals (List.replicate seg.rowCount true)
      let sel ← evaluateBatchQuals (decodedWords m seg) seg.rowCount batchQuals sel
      some (selectedOffsets sel)

end matching

/-! ## What SQL selects -/

inductive Predicate
  | comparison (cmp : Comparison) (c : Datum)
  | inList (values : List Datum)
  | textEq (negated : Bool) (c : Text)
  | textIn (values : List Text)
  | like (negated : Bool) (pattern : Text)
deriving DecidableEq, Repr

namespace Predicate

/-- The qual of a predicate, as `extract_batch_quals` builds it. -/
def qual (ci : ℕ) (ty : TypeOid) : Predicate → PlanQual
  | comparison cmp c => { PlanQual.ofColumn ci ty with op := compareOp cmp, constDatum := c }
  | inList values => { PlanQual.ofColumn ci ty with op := .inList, inListI64 := some values }
  | textEq negated c =>
      { PlanQual.ofColumn ci ty with op := if negated then .ne else .eq, textConst := some c }
  | textIn values => { PlanQual.ofColumn ci ty with op := .inList, inListText := some values }
  | like negated pattern =>
      { PlanQual.ofColumn ci ty with
        op := if negated then .notLike else .like
        likeStrategy := some (compileLikePattern pattern) }

def Fits (ty : TypeOid) : Predicate → Prop
  | comparison _ _ => isBatchComparableType ty = true
  | inList _ => isNumericIn ty = true
  | textEq _ _ => isVarText ty = true
  | textIn _ => isTextType ty = true
  | like _ _ => isTextType ty = true

/-- Equality of texts; `char(n)` does not count trailing blanks. -/
def textEqual (ty : TypeOid) (s c : Text) : Prop :=
  if ty = .bpchar then s.rdropWhile (· == ' ') = c.rdropWhile (· == ' ') else s = c

/-- The predicate is true of a value that is not NULL. -/
def Holds (ty : TypeOid) : Predicate → ElemValue → Prop
  | comparison cmp c, .datum d => cmp.Holds (sqlKey ty d) (sqlKey ty c)
  | inList values, .datum d => ∃ c ∈ values, sqlKey ty d = sqlKey ty c
  | textEq negated c, .text s => if negated then ¬ textEqual ty s c else textEqual ty s c
  | textIn values, .text s => ∃ c ∈ values, textEqual ty s c
  | like negated pattern, .text s => if negated then ¬ SqlLike s pattern else SqlLike s pattern
  | _, _ => False

/-- The predicate is evaluated on the value as PostgreSQL does: a NaN is compared as in its order,
and a pattern it accepts finds the same in the bytes of the text as in its characters. -/
def ExactOn (ty : TypeOid) : Predicate → ElemValue → Prop
  | comparison cmp c, .datum d => WordExact ty cmp d c
  | like _ pattern, .text s =>
      Accepted pattern ∧
        (AllGaps UniformGap 0 false (likeTokens pattern) ∨ ∀ ch ∈ s, ch.toNat < 128)
  | _, _ => True

/-- The qual accepts such values as the predicate is true of. -/
theorem accepts_iff {ty : TypeOid} {p : Predicate} {ci : ℕ} (hfits : p.Fits ty)
    (haccepted : batchQualsTombstoneExact [p.qual ci ty] = true)
    {v : ElemValue} (hv : v.HasType ty) (hexact : p.ExactOn ty v) :
    (p.qual ci ty).accepts v = true ↔ p.Holds ty v := by
  cases p with
  | comparison cmp c =>
      have htext := not_isTextType_of_isBatchComparableType hfits
      cases v with
      | text s => exact absurd (show isTextType ty = true from hv) (by simp [htext])
      | datum d =>
          simp only [qual, PlanQual.accepts, compareOp_comparison, Holds]
          exact (applyBatchFilter_iff_sqlKey hfits cmp c d).mpr hexact
  | inList values =>
      have htext := not_isTextType_of_isNumericIn hfits
      cases v with
      | text s => exact absurd (show isTextType ty = true from hv) (by simp [htext])
      | datum d => exact applyBatchFilterInList_iff hfits values d
  | textEq negated c =>
      have hchar : ty ≠ .bpchar := by
        rintro rfl
        cases hfits
      cases v with
      | datum d =>
          exact absurd (show isTextType ty = false from hv) (by simp [isTextType_of_isVarText hfits])
      | text s =>
          cases negated <;> simp [qual, PlanQual.accepts, Holds, textEqual, hchar]
  | textIn values =>
      have hchar : ty ≠ .bpchar := by
        rintro rfl
        simp [batchQualsTombstoneExact, qual, PlanQual.ofColumn] at haccepted
      cases v with
      | datum d =>
          exact absurd (show isTextType ty = false from hv) (by simp [show isTextType ty = true from hfits])
      | text s => simp [qual, PlanQual.accepts, Holds, textEqual, hchar]
  | like negated pattern =>
      cases v with
      | datum d =>
          exact absurd (show isTextType ty = false from hv) (by simp [show isTextType ty = true from hfits])
      | text s =>
          have hmatch : likeStrategyMatches (compileLikePattern pattern) s = true ↔
              SqlLike s pattern := by
            rw [likeStrategyMatches_eq]
            rcases hexact.2 with hgaps | hascii
            · exact sqlLikeMatch_iff_of_uniform hgaps s
            · exact sqlLikeMatch_iff_of_ascii hascii pattern
          cases negated
          · simp [qual, PlanQual.accepts, Holds, hmatch]
          · simp [qual, PlanQual.accepts, Holds, ← hmatch]

end Predicate

/-! ## The rows of a segment -/

section rows

variable (stringToDatum : Text → TypeOid → Datum) (m : DmlMeta) (seg : DmlSegment)

/-- A stored segment value as a value of the column. -/
def segmentCell (ty : TypeOid) (s : Text) : ElemValue :=
  if isTextType ty then .text s else .datum (stringToDatum s ty)

def DmlSegment.cell (ci i : ℕ) : Option ElemValue :=
  match segbyValue m seg ci with
  | some v => v.map (segmentCell stringToDatum (m.typeAt ci))
  | none => ((decodedColumn m seg ci).getD []).getD i none

/-- The columns of a live segment decode to its rows, under their types. -/
structure DmlSegment.Loaded : Prop where
  decoded : ∀ ci < m.colNames.length, segbyValue m seg ci = none →
    ∃ col, decodedColumn m seg ci = some col ∧ col.length = seg.rowCount ∧
      ∀ v, some v ∈ col → v.HasType (m.typeAt ci)

def DmlSegment.Selected (preds : List (ℕ × Predicate)) (i : ℕ) : Prop :=
  ∀ p ∈ preds, ∃ v, seg.cell stringToDatum m p.1 i = some v ∧ p.2.Holds (m.typeAt p.1) v

def qualsOf (preds : List (ℕ × Predicate)) : List PlanQual :=
  preds.map fun p => p.2.qual p.1 (m.typeAt p.1)

variable {stringToDatum m seg}

theorem segmentCell_hasType (ty : TypeOid) (s : Text) :
    (segmentCell stringToDatum ty s).HasType ty := by
  unfold segmentCell
  cases h : isTextType ty
  · exact h
  · exact h

theorem cell_hasType (hloaded : seg.Loaded m) {ci i : ℕ} (hci : ci < m.colNames.length)
    {v : ElemValue} (hv : seg.cell stringToDatum m ci i = some v) : v.HasType (m.typeAt ci) := by
  unfold DmlSegment.cell at hv
  split at hv
  · obtain ⟨s, -, rfl⟩ := Option.map_eq_some_iff.mp hv
    exact segmentCell_hasType _ s
  · rename_i hseg
    obtain ⟨col, hcol, -, htyped⟩ := hloaded.decoded ci hci hseg
    rw [hcol, Option.getD_some] at hv
    apply htyped
    rw [List.getD_eq_getElem?_getD] at hv
    cases hget : col[i]? with
    | none => simp [hget] at hv
    | some cell =>
        rw [hget, Option.getD_some] at hv
        exact hv ▸ List.mem_of_getElem? hget

theorem qual_colIdx (p : Predicate) (ci : ℕ) (ty : TypeOid) : (p.qual ci ty).colIdx = ci := by
  cases p <;> rfl

theorem qual_typeOid (p : Predicate) (ci : ℕ) (ty : TypeOid) : (p.qual ci ty).typeOid = ty := by
  cases p <;> rfl

/-- One qual keeps the rows whose value it accepts. -/
theorem andFilter_map {col : List (Option ElemValue)} {n : ℕ} (hlen : col.length = n)
    (f : ElemValue → Bool) (g : ℕ → Bool) :
    andFilter col f ((List.range n).map g) =
      (List.range n).map fun i => g i && (col.getD i none).any f := by
  apply List.ext_getElem
  · simp [andFilter, hlen]
  · intro i h₁ h₂
    have hi : i < col.length := by simpa [andFilter, hlen] using h₁
    simp [andFilter, List.getD_eq_getElem?_getD, List.getElem?_eq_getElem hi]

theorem andFilter_congr {col : List (Option ElemValue)} {f g : ElemValue → Bool}
    (h : ∀ v, some v ∈ col → f v = g v) (sel : List Bool) :
    andFilter col f sel = andFilter col g sel := by
  unfold andFilter
  apply List.ext_getElem
  · simp
  · intro i h₁ h₂
    have hi : i < col.length := by
      rw [List.length_zipWith] at h₁
      omega
    simp only [List.getElem_zipWith]
    congr 1
    cases hc : col[i] with
    | none => rfl
    | some v => exact h v (hc ▸ List.getElem_mem hi)

def Predicate.isTextual : Predicate → Bool
  | .textEq _ _ | .textIn _ | .like _ _ => true
  | _ => false

theorem Predicate.Fits.isTextType_eq {ty : TypeOid} {p : Predicate} (h : p.Fits ty) :
    isTextType ty = p.isTextual := by
  cases p with
  | comparison => exact not_isTextType_of_isBatchComparableType h
  | inList => exact not_isTextType_of_isNumericIn h
  | textEq => exact isTextType_of_isVarText h
  | textIn => exact h
  | like => exact h

theorem isBatchComparableType_of_isNumericIn {ty : TypeOid} (h : isNumericIn ty = true) :
    isBatchComparableType ty = true := by
  cases ty <;> first | rfl | cases h

theorem compareOp_ne_like (cmp : Comparison) :
    ¬(compareOp cmp = .like ∨ compareOp cmp = .notLike) := by
  cases cmp <;> decide

theorem evalQualOnSingleValue_eq {ty : TypeOid} {p : Predicate} {ci : ℕ} (hfits : p.Fits ty)
    (haccepted : batchQualsTombstoneExact [p.qual ci ty] = true) (value : Option Text) :
    evalQualOnSingleValue stringToDatum (p.qual ci ty) value =
      some ((p.qual ci ty).selects (value.map (segmentCell stringToDatum ty))) := by
  have htext := hfits.isTextType_eq
  cases value with
  | none => rfl
  | some s =>
      cases p with
      | comparison cmp c =>
          have hbool : ¬(ty = .bool ∧ compareOp cmp ≠ .eq ∧ compareOp cmp ≠ .ne) := by
            rintro ⟨rfl, heq, hne⟩
            cases cmp <;> simp [batchQualsTombstoneExact, Predicate.qual, compareOp,
              PlanQual.ofColumn] at haccepted heq hne
          have hty : isBatchComparableType ty = true := hfits
          simp [evalQualOnSingleValue, Predicate.qual, PlanQual.ofColumn, compareOp_ne_like,
            compareOp_comparison, hbool, hty, PlanQual.selects, PlanQual.accepts,
            segmentCell, htext, Predicate.isTextual]
      | inList values =>
          simp [evalQualOnSingleValue, Predicate.qual, PlanQual.ofColumn, PlanQual.selects,
            PlanQual.accepts, segmentCell, htext, Predicate.isTextual, BatchCompareOp.comparison]
      | textEq negated c =>
          cases negated <;>
            simp [evalQualOnSingleValue, Predicate.qual, PlanQual.ofColumn, PlanQual.selects,
              PlanQual.accepts, segmentCell, htext, Predicate.isTextual]
      | textIn values =>
          simp [evalQualOnSingleValue, Predicate.qual, PlanQual.ofColumn, PlanQual.selects,
            PlanQual.accepts, segmentCell, htext, Predicate.isTextual]
      | like negated pattern =>
          cases negated <;>
            simp [evalQualOnSingleValue, Predicate.qual, PlanQual.ofColumn, PlanQual.selects,
              PlanQual.accepts, segmentCell, htext, Predicate.isTextual]

/-- The comparison picked for a text predicate is the qual's. -/
theorem textCmp_eq {p : Predicate} (ci : ℕ) (ty : TypeOid) (htextual : p.isTextual = true) :
    ∃ f, textCmp (p.qual ci ty) = some f ∧ ∀ s, f s = (p.qual ci ty).accepts (.text s) := by
  cases p with
  | comparison => cases htextual
  | inList => cases htextual
  | textEq negated c =>
      cases negated <;> exact ⟨_, rfl, fun _ => rfl⟩
  | textIn values => exact ⟨_, rfl, fun _ => rfl⟩
  | like negated pattern =>
      cases negated <;> exact ⟨_, rfl, fun _ => rfl⟩

/-- Predicates on columns of the table, on types they are extracted for, that are
accepted for the fast path. -/
structure Admissible (m : DmlMeta) (preds : List (ℕ × Predicate)) : Prop where
  column : ∀ p ∈ preds, p.1 < m.colNames.length
  fits : ∀ p ∈ preds, p.2.Fits (m.typeAt p.1)
  accepted : batchQualsTombstoneExact (qualsOf m preds) = true

theorem batchQualsTombstoneExact_cons (bq : PlanQual) (quals : List PlanQual) :
    batchQualsTombstoneExact (bq :: quals) =
      (batchQualsTombstoneExact [bq] && batchQualsTombstoneExact quals) := by
  simp [batchQualsTombstoneExact]

theorem Admissible.cons {p : ℕ × Predicate} {preds : List (ℕ × Predicate)}
    (h : Admissible m (p :: preds)) :
    (p.1 < m.colNames.length ∧ p.2.Fits (m.typeAt p.1) ∧
      batchQualsTombstoneExact [p.2.qual p.1 (m.typeAt p.1)] = true) ∧ Admissible m preds := by
  obtain ⟨hcol, hcols⟩ := List.forall_mem_cons.mp h.column
  obtain ⟨hfit, hfits⟩ := List.forall_mem_cons.mp h.fits
  have haccepted := h.accepted
  rw [qualsOf, List.map_cons, batchQualsTombstoneExact_cons, Bool.and_eq_true] at haccepted
  exact ⟨⟨hcol, hfit, haccepted.1⟩, hcols, hfits, haccepted.2⟩

/-- The qual of a predicate on the row's value. -/
def passes (stringToDatum : Text → TypeOid → Datum) (m : DmlMeta) (seg : DmlSegment)
    (i : ℕ) (p : ℕ × Predicate) : Bool :=
  (p.2.qual p.1 (m.typeAt p.1)).selects (seg.cell stringToDatum m p.1 i)

/-- The shortcut looks at every predicate on a segment-by column. -/
theorem segbyPasses_eq (stringToDatum : Text → TypeOid → Datum) {preds : List (ℕ × Predicate)} (h : Admissible m preds) (i : ℕ) :
    segbyPasses stringToDatum m seg (qualsOf m preds) =
      some (preds.all fun p =>
        (segbyValue m seg p.1).isNone || passes stringToDatum m seg i p) := by
  induction preds with
  | nil => rfl
  | cons p preds ih =>
      obtain ⟨⟨-, hfit, haccepted⟩, htail⟩ := h.cons
      have ih := ih htail
      rw [qualsOf] at ih
      rw [qualsOf, List.map_cons, segbyPasses, qual_colIdx, List.all_cons]
      cases hseg : segbyValue m seg p.1 with
      | none => simpa using ih
      | some v =>
          have hpass : passes stringToDatum m seg i p = (p.2.qual p.1 (m.typeAt p.1)).selects
              (v.map (segmentCell stringToDatum (m.typeAt p.1))) := by
            rw [passes, DmlSegment.cell, hseg]
          simp only [evalQualOnSingleValue_eq hfit haccepted]
          rw [← hpass]
          cases passes stringToDatum m seg i p
          · simp
          · simpa using ih

theorem cell_of_decoded {ci : ℕ} {col : List (Option ElemValue)}
    (hseg : segbyValue m seg ci = none) (hcol : decodedColumn m seg ci = some col) (i : ℕ) :
    seg.cell stringToDatum m ci i = col.getD i none := by
  rw [DmlSegment.cell, hseg, hcol]
  rfl

/-- The texts are looked at for the predicates on texts. -/
theorem textish_iff (p : Predicate) (ci : ℕ) (ty : TypeOid) :
    ((p.qual ci ty).op = .like ∨ (p.qual ci ty).op = .notLike ∨
      (p.qual ci ty).textConst.isSome = true ∨ (p.qual ci ty).inListText.isSome = true) ↔
        p.isTextual = true := by
  cases p with
  | comparison cmp =>
      cases cmp <;> simp [Predicate.qual, compareOp, PlanQual.ofColumn, Predicate.isTextual]
  | inList => simp [Predicate.qual, PlanQual.ofColumn, Predicate.isTextual]
  | textEq negated => simp [Predicate.qual, Predicate.isTextual]
  | textIn => simp [Predicate.qual, Predicate.isTextual]
  | like negated => cases negated <;> simp [Predicate.qual, Predicate.isTextual]

theorem isBatchComparableType_of_fits {ty : TypeOid} {p : Predicate} (hfits : p.Fits ty)
    (htextual : p.isTextual = false) : isBatchComparableType ty = true := by
  cases p with
  | comparison => exact hfits
  | inList => exact isBatchComparableType_of_isNumericIn hfits
  | textEq => cases htextual
  | textIn => cases htextual
  | like => cases htextual

/-- One step over the selection: the rows whose value the qual accepts. -/
theorem andFilter_passes (stringToDatum : Text → TypeOid → Datum) {p : ℕ × Predicate} {col : List (Option ElemValue)}
    (hseg : segbyValue m seg p.1 = none) (hdecoded : decodedColumn m seg p.1 = some col)
    (hlen : col.length = seg.rowCount) {f : ElemValue → Bool}
    (hf : ∀ v, some v ∈ col → f v = (p.2.qual p.1 (m.typeAt p.1)).accepts v) (g : ℕ → Bool) :
    andFilter col f ((List.range seg.rowCount).map g) =
      (List.range seg.rowCount).map fun i => g i && passes stringToDatum m seg i p := by
  rw [andFilter_congr hf, andFilter_map hlen]
  simp only [passes, PlanQual.selects, cell_of_decoded hseg hdecoded]

theorem textQuals_eq (stringToDatum : Text → TypeOid → Datum) (hloaded : seg.Loaded m) {preds : List (ℕ × Predicate)}
    (h : Admissible m preds) (g : ℕ → Bool) :
    textQuals m seg (qualsOf m preds) ((List.range seg.rowCount).map g) =
      some ((List.range seg.rowCount).map fun i => g i && preds.all fun p =>
        (segbyValue m seg p.1).isSome || !p.2.isTextual || passes stringToDatum m seg i p) := by
  induction preds generalizing g with
  | nil => simp [qualsOf, textQuals]
  | cons p preds ih =>
      obtain ⟨⟨hcol, hfit, haccepted⟩, htail⟩ := h.cons
      have ih := ih htail
      rw [qualsOf] at ih
      rw [qualsOf, List.map_cons, textQuals, qual_colIdx, qual_typeOid]
      simp only [List.all_cons]
      cases hseg : segbyValue m seg p.1 with
      | some v => simpa using ih g
      | none =>
          obtain ⟨col, hdecoded, hlen, htyped⟩ := hloaded.decoded p.1 hcol hseg
          cases htextual : p.2.isTextual with
          | true =>
              obtain ⟨f, hf, haccepts⟩ := textCmp_eq p.1 (m.typeAt p.1) htextual
              have hstep : ∀ v, some v ∈ col →
                  textHolds f v = (p.2.qual p.1 (m.typeAt p.1)).accepts v := by
                intro v hv
                have hv := htyped v hv
                cases v with
                | text s => exact haccepts s
                | datum d =>
                    exact absurd (show isTextType _ = false from hv)
                      (by simp [hfit.isTextType_eq, htextual])
              rw [if_neg (by simp), if_pos ((textish_iff _ _ _).mpr htextual), hf, hdecoded]
              simp only [Option.bind_eq_bind, Option.bind_some]
              rw [andFilter_passes stringToDatum hseg hdecoded hlen hstep, ih]
              simp [Bool.and_assoc]
          | false =>
              rw [if_neg (by simp), if_neg (by simp [textish_iff, htextual]),
                if_pos (isBatchComparableType_of_fits hfit htextual), ih]
              simp

theorem Predicate.Fits.not_batchComparable {ty : TypeOid} {p : Predicate} (hfit : p.Fits ty)
    (htextual : p.isTextual = true) : isBatchComparableType ty = false := by
  cases hty : isBatchComparableType ty with
  | false => rfl
  | true =>
      have htext := hfit.isTextType_eq
      rw [not_isTextType_of_isBatchComparableType hty, htextual] at htext
      cases htext

theorem batchFilter_qual {ty : TypeOid} {p : Predicate} (ci : ℕ) (hfit : p.Fits ty) :
    batchFilter (p.qual ci ty) =
      if p.isTextual then none else some fun d => some ((p.qual ci ty).accepts (.datum d)) := by
  cases p with
  | comparison cmp c =>
      have hty : isBatchComparableType ty = true := hfit
      cases cmp <;>
        simp [batchFilter, Predicate.qual, compareOp, BatchCompareOp.comparison, PlanQual.accepts,
          PlanQual.ofColumn, Predicate.isTextual, hty]
  | inList values =>
      have hty : isNumericIn ty = true := hfit
      simp [batchFilter, Predicate.qual, PlanQual.accepts, BatchCompareOp.comparison,
        PlanQual.ofColumn, Predicate.isTextual, hty]
  | textEq negated c =>
      have hty := hfit.not_batchComparable rfl
      cases negated <;>
        simp [batchFilter, Predicate.qual, PlanQual.ofColumn, Predicate.isTextual, hty]
  | textIn values =>
      show (if isNumericIn ty = true then none else none) = none
      rw [ite_self]
  | like negated pattern =>
      have hty := hfit.not_batchComparable rfl
      cases negated <;>
        simp [batchFilter, Predicate.qual, PlanQual.ofColumn, Predicate.isTextual, hty]

theorem zipWith_cellWord (accepts : Datum → Bool) (col : List (Option ElemValue))
    (sel : List Bool) :
    List.zipWith (fun s cell => s && (!cell.2 && accepts cell.1)) sel (col.map cellWord) =
      andFilter col (fun v => accepts (v.asDatum.getD 0)) sel := by
  rw [andFilter, List.zipWith_map_right]
  congr 1
  funext s cell
  cases cell <;> rfl

/-- One round of the batch filter: it takes the predicates that are not on texts. -/
theorem applyQual_eq (stringToDatum : Text → TypeOid → Datum) (hloaded : seg.Loaded m)
    (hrows : seg.rowCount ≠ 0) {p : ℕ × Predicate} (hcol : p.1 < m.colNames.length)
    (hfit : p.2.Fits (m.typeAt p.1)) (g : ℕ → Bool) :
    applyQual (decodedWords m seg) ((List.range seg.rowCount).map g)
        (p.2.qual p.1 (m.typeAt p.1)) =
      some ((List.range seg.rowCount).map fun i => g i &&
        ((segbyValue m seg p.1).isSome || p.2.isTextual || passes stringToDatum m seg i p)) := by
  have hwords : (decodedWords m seg)[p.1]? = some (if (segbyValue m seg p.1).isSome then []
      else ((decodedColumn m seg p.1).getD []).map cellWord) := by
    rw [decodedWords, List.getElem?_map, List.getElem?_range hcol, Option.map_some]
  rw [applyQual, qual_colIdx, hwords, batchFilter_qual p.1 hfit]
  simp only [Option.bind_eq_bind, Option.bind_some]
  cases hseg : segbyValue m seg p.1 with
  | some v => simp
  | none =>
      obtain ⟨col, hdecoded, hlen, htyped⟩ := hloaded.decoded p.1 hcol hseg
      have hne : col ≠ [] := by
        rintro rfl
        exact hrows hlen.symm
      simp only [Option.isSome_none, Bool.false_eq_true, if_false, hdecoded, Option.getD_some,
        List.map_eq_nil_iff, if_neg hne, Bool.false_or]
      cases htextual : p.2.isTextual with
      | true => simp
      | false =>
          have hstep : ∀ v, some v ∈ col →
              (p.2.qual p.1 (m.typeAt p.1)).accepts (.datum (v.asDatum.getD 0)) =
                (p.2.qual p.1 (m.typeAt p.1)).accepts v := by
            intro v hv
            have hv := htyped v hv
            cases v with
            | datum d => rfl
            | text s =>
                exact absurd (show isTextType _ = true from hv)
                  (by simp [hfit.isTextType_eq, htextual])
          simp only [Bool.false_eq_true, if_false, Bool.false_or]
          rw [applyBatchFilterTyped_eq _ (by simp [hlen]),
            zipWith_cellWord fun d => (p.2.qual p.1 (m.typeAt p.1)).accepts (.datum d),
            andFilter_passes stringToDatum hseg hdecoded hlen hstep]

theorem evaluateBatchQuals_eq (stringToDatum : Text → TypeOid → Datum) (hloaded : seg.Loaded m)
    (hrows : seg.rowCount ≠ 0) {preds : List (ℕ × Predicate)} (h : Admissible m preds)
    (g : ℕ → Bool) :
    evaluateBatchQuals (decodedWords m seg) seg.rowCount (qualsOf m preds)
        ((List.range seg.rowCount).map g) =
      some ((List.range seg.rowCount).map fun i => g i && preds.all fun p =>
        (segbyValue m seg p.1).isSome || p.2.isTextual || passes stringToDatum m seg i p) := by
  have hsel : (List.range seg.rowCount).map g ≠ [] := by simp [hrows]
  rw [evaluateBatchQuals, if_neg fun hnil => hsel hnil.2, if_neg hsel]
  clear hsel
  induction preds generalizing g with
  | nil => simp [qualsOf]
  | cons p preds ih =>
      obtain ⟨⟨hcol, hfit, -⟩, htail⟩ := h.cons
      have ih := ih htail
      rw [qualsOf] at ih
      rw [qualsOf, List.map_cons, List.foldlM_cons,
        applyQual_eq stringToDatum hloaded hrows hcol hfit, Option.bind_eq_bind, Option.bind_some, ih]
      simp [Bool.and_assoc]

theorem selectedOffsets_map (n : ℕ) (g : ℕ → Bool) :
    selectedOffsets ((List.range n).map g) = (List.range n).filter g := by
  unfold selectedOffsets
  rw [List.length_map, List.length_range]
  apply List.filter_congr
  intro i hi
  rw [List.getD_eq_getElem?_getD, List.getElem?_map, List.getElem?_range (List.mem_range.mp hi)]
  rfl

theorem replicate_true_eq (n : ℕ) : List.replicate n true = (List.range n).map fun _ => true := by
  simp

/-- The rows on which every qual passes. -/
theorem dmlMatchingOffsets_eq (stringToDatum : Text → TypeOid → Datum) (hloaded : seg.Loaded m)
    {preds : List (ℕ × Predicate)} (h : Admissible m preds) :
    dmlMatchingOffsets stringToDatum m seg (qualsOf m preds) =
      some ((List.range seg.rowCount).filter fun i =>
        preds.all (passes stringToDatum m seg i)) := by
  unfold dmlMatchingOffsets
  rw [if_neg (by simp [h.accepted])]
  by_cases hrows : seg.rowCount = 0
  · simp [hrows]
  · have hcols : ¬ ((qualsOf m preds).any fun bq => decide (m.colNames.length ≤ bq.colIdx)) := by
      simp only [qualsOf, List.any_map, List.any_eq_true, Function.comp, qual_colIdx,
        decide_eq_true_eq, not_exists, not_and, Nat.not_le]
      exact h.column
    have hblobs : ¬ ((qualsOf m preds).any fun bq =>
        (segbyValue m seg bq.colIdx).isNone && (decodedColumn m seg bq.colIdx).isNone) := by
      simp only [qualsOf, List.any_map, List.any_eq_true, Function.comp, qual_colIdx,
        not_exists, not_and]
      intro p hp hnone
      rw [Bool.and_eq_true, Option.isNone_iff_eq_none, Option.isNone_iff_eq_none] at hnone
      obtain ⟨col, hcol, -⟩ := hloaded.decoded p.1 (h.column p hp) hnone.1
      rw [hcol] at hnone
      cases hnone.2
    rw [if_neg hrows, if_neg hcols, if_neg hblobs]
    have hsegby : ∀ i, segbyPasses stringToDatum m seg (qualsOf m preds) = _ :=
      fun i => segbyPasses_eq stringToDatum h i
    rw [hsegby 0, replicate_true_eq]
    simp only [Option.bind_eq_bind, Option.bind_some, textQuals_eq stringToDatum hloaded h,
      evaluateBatchQuals_eq stringToDatum hloaded hrows h, selectedOffsets_map]
    -- what a segment-by column decides it decides for every row
    have hsame : ∀ i, (preds.all fun p =>
        (segbyValue m seg p.1).isNone || passes stringToDatum m seg i p) =
        preds.all fun p => (segbyValue m seg p.1).isNone || passes stringToDatum m seg 0 p :=
      fun i => Option.some.inj ((hsegby i).symm.trans (hsegby 0))
    split
    · rename_i hfails
      congr 1
      apply Eq.symm
      apply List.filter_eq_nil_iff.mpr
      intro i _ hpass
      rw [← hsame i, List.all_eq_false] at hfails
      obtain ⟨p, hp, hfail⟩ := hfails
      apply hfail
      rw [List.all_eq_true.mp hpass p hp, Bool.or_true]
    · rename_i hpasses
      rw [Bool.not_eq_false] at hpasses
      congr 1
      apply List.filter_congr
      intro i _
      apply Bool.eq_iff_iff.mpr
      rw [← hsame i] at hpasses
      simp only [Bool.true_and, Bool.and_eq_true, List.all_eq_true] at hpasses ⊢
      constructor
      · rintro ⟨htext, hother⟩ p hp
        have hp₁ := hpasses p hp
        have hp₂ := htext p hp
        have hp₃ := hother p hp
        cases hseg : segbyValue m seg p.1 <;> cases htextual : p.2.isTextual <;> simp_all
      · intro hall
        refine ⟨fun p hp => ?_, fun p hp => ?_⟩ <;> rw [hall p hp, Bool.or_true]

theorem Admissible.accepted_of_mem {preds : List (ℕ × Predicate)} (h : Admissible m preds)
    {p : ℕ × Predicate} (hp : p ∈ preds) :
    batchQualsTombstoneExact [p.2.qual p.1 (m.typeAt p.1)] = true := by
  have haccepted := h.accepted
  unfold batchQualsTombstoneExact at haccepted ⊢
  rw [List.all_eq_true] at haccepted
  rw [List.all_cons, haccepted _ (List.mem_map_of_mem hp)]
  rfl

/-- Every predicate is evaluated on the row's value as PostgreSQL does. -/
def DmlSegment.ExactAt (stringToDatum : Text → TypeOid → Datum) (m : DmlMeta) (seg : DmlSegment)
    (preds : List (ℕ × Predicate)) (i : ℕ) : Prop :=
  ∀ p ∈ preds, ∀ v, seg.cell stringToDatum m p.1 i = some v → p.2.ExactOn (m.typeAt p.1) v

theorem passes_iff (hloaded : seg.Loaded m) {preds : List (ℕ × Predicate)}
    (h : Admissible m preds) {p : ℕ × Predicate} (hp : p ∈ preds) {i : ℕ} {v : ElemValue}
    (hcell : seg.cell stringToDatum m p.1 i = some v) (hexact : p.2.ExactOn (m.typeAt p.1) v) :
    passes stringToDatum m seg i p = true ↔ p.2.Holds (m.typeAt p.1) v := by
  have hv := cell_hasType hloaded (h.column p hp) hcell
  rw [passes, hcell]
  exact Predicate.accepts_iff (h.fits p hp) (h.accepted_of_mem hp) hv hexact

theorem exists_cell_of_passes {p : ℕ × Predicate} {i : ℕ}
    (hpass : passes stringToDatum m seg i p = true) :
    ∃ v, seg.cell stringToDatum m p.1 i = some v := by
  unfold passes PlanQual.selects at hpass
  obtain ⟨v, hcell, -⟩ := (Option.any_eq_true _ _).mp hpass
  exact ⟨v, hcell⟩

end rows

/-- What is returned are the rows the predicates are true of, in order: the live ones and those
that are tombstoned already.  A row is an exception only through a value that PostgreSQL compares
in another way, and one that is returned has such a value under every predicate not true of it. -/
theorem dmlMatchingOffsets_selected (stringToDatum : Text → TypeOid → Datum) {m : DmlMeta}
    {seg : DmlSegment} (hloaded : seg.Loaded m) {preds : List (ℕ × Predicate)}
    (h : Admissible m preds) :
    ∃ offsets, dmlMatchingOffsets stringToDatum m seg (qualsOf m preds) = some offsets ∧
      offsets.Pairwise (· < ·) ∧ (∀ i ∈ offsets, i < seg.rowCount) ∧
      ∀ i < seg.rowCount,
        (seg.ExactAt stringToDatum m preds i →
          (i ∈ offsets ↔ seg.Selected stringToDatum m preds i)) ∧
        (i ∈ offsets → ∀ p ∈ preds, ∃ v, seg.cell stringToDatum m p.1 i = some v ∧
          (p.2.ExactOn (m.typeAt p.1) v → p.2.Holds (m.typeAt p.1) v)) := by
  refine ⟨_, dmlMatchingOffsets_eq stringToDatum hloaded h, List.pairwise_lt_range.filter _, ?_, ?_⟩
  · intro i hi
    exact List.mem_range.mp (List.mem_filter.mp hi).1
  · intro i hi
    have hmem : i ∈ (List.range seg.rowCount).filter (fun i =>
        preds.all (passes stringToDatum m seg i)) ↔
          ∀ p ∈ preds, passes stringToDatum m seg i p = true := by
      rw [List.mem_filter, List.mem_range, and_iff_right hi, List.all_eq_true]
    have hreturned : (∀ p ∈ preds, passes stringToDatum m seg i p = true) →
        ∀ p ∈ preds, ∃ v, seg.cell stringToDatum m p.1 i = some v ∧
          (p.2.ExactOn (m.typeAt p.1) v → p.2.Holds (m.typeAt p.1) v) := by
      intro hall p hp
      obtain ⟨v, hcell⟩ := exists_cell_of_passes (hall p hp)
      exact ⟨v, hcell, fun hexact => (passes_iff hloaded h hp hcell hexact).mp (hall p hp)⟩
    rw [hmem]
    refine ⟨fun hexact => ⟨fun hall p hp => ?_, fun hsel p hp => ?_⟩, hreturned⟩
    · obtain ⟨v, hcell, hholds⟩ := hreturned hall p hp
      exact ⟨v, hcell, hholds (hexact p hp v hcell)⟩
    · obtain ⟨v, hcell, hholds⟩ := hsel p hp
      exact (passes_iff hloaded h hp hcell (hexact p hp v hcell)).mpr hholds

/-- `(amount integer, name text)`, with both columns compressed. -/
def ordersMeta : DmlMeta where
  colNames := ["amount".toList, "name".toList]
  colTypes := [.int4, .text]
  segmentBy := []
  blobIdx := [some 0, some 1]
  missingValues := [none, none]

def ordersSegment : DmlSegment where
  rowCount := 3
  segmentValues := []
  blobs := [[some (.datum 7), none, some (.datum 9)],
    [some (.text "ab".toList), some (.text "b".toList), some (.text "ac".toList)]]
  tombstones := [0]

/-- `amount >= 7 AND name LIKE 'a%'`. -/
def ordersPreds : List (ℕ × Predicate) := [(0, .comparison .ge 7), (1, .like false "a%".toList)]

/-- None of the columns is segmented by, so the input function is not called. -/
def noInput : Text → TypeOid → Datum := fun _ _ => 0

theorem ordersSegment_loaded : ordersSegment.Loaded ordersMeta := by
  constructor
  intro ci hci _
  have hcases : ci = 0 ∨ ci = 1 := by
    have : ci < 2 := hci
    omega
  rcases hcases with rfl | rfl
  · refine ⟨_, rfl, rfl, ?_⟩
    intro v hv
    simp only [List.mem_cons, Option.some.injEq, reduceCtorEq, List.not_mem_nil, or_false,
      false_or] at hv
    rcases hv with rfl | rfl <;> rfl
  · refine ⟨_, rfl, rfl, ?_⟩
    intro v hv
    simp only [List.mem_cons, Option.some.injEq, List.not_mem_nil, or_false] at hv
    rcases hv with rfl | rfl | rfl <;> rfl

theorem ordersPreds_admissible : Admissible ordersMeta ordersPreds where
  column := by decide
  fits := List.forall_mem_cons.mpr ⟨rfl, List.forall_mem_singleton.mpr rfl⟩
  accepted := rfl

theorem dmlMatchingOffsets_orders :
    ∃ offsets, dmlMatchingOffsets noInput ordersMeta ordersSegment
        (qualsOf ordersMeta ordersPreds) = some offsets ∧
      offsets.Pairwise (· < ·) ∧ (∀ i ∈ offsets, i < ordersSegment.rowCount) ∧
      ∀ i < ordersSegment.rowCount,
        (ordersSegment.ExactAt noInput ordersMeta ordersPreds i →
          (i ∈ offsets ↔ ordersSegment.Selected noInput ordersMeta ordersPreds i)) ∧
        (i ∈ offsets → ∀ p ∈ ordersPreds, ∃ v,
          ordersSegment.cell noInput ordersMeta p.1 i = some v ∧
            (p.2.ExactOn (ordersMeta.typeAt p.1) v → p.2.Holds (ordersMeta.typeAt p.1) v)) :=
  dmlMatchingOffsets_selected noInput ordersSegment_loaded ordersPreds_admissible

/-- An offset that is tombstoned already is returned again. -/
theorem dmlMatchingOffsets_tombstoned :
    ordersSegment.Loaded ordersMeta ∧ Admissible ordersMeta [(0, .comparison .eq 7)] ∧
      dmlMatchingOffsets noInput ordersMeta ordersSegment
        (qualsOf ordersMeta [(0, .comparison .eq 7)]) = some [0] ∧
      ¬ ∀ i, i ∈ [0] ↔ i < ordersSegment.rowCount ∧ i ∉ ordersSegment.tombstones ∧
        ordersSegment.Selected noInput ordersMeta [(0, .comparison .eq 7)] i := by
  refine ⟨ordersSegment_loaded, ⟨by decide, List.forall_mem_singleton.mpr rfl, rfl⟩, by decide, ?_⟩
  intro h
  have hlive := ((h 0).mp List.mem_cons_self).2.1
  exact hlive (by decide)

end DeltaX.Scan
