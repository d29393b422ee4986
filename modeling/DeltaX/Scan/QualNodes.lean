import DeltaX.Scan.MinMax
import DeltaX.Schema.Columns
/-!
# Qual nodes and what is extracted from them

The clauses of a plan's qual list and the three routines that read a column out
of them: the batch quals, the filters that prune whole segments, and the sort
column of a Top-N scan.  All of them turn an attribute number into a position
of the dense column vectors by subtracting one, while a dropped column leaves a
hole in the numbers.
-/

namespace DeltaX.Scan

open Column Schema MinMax Support.Numbering

/-! ## Nodes -/

/-- Operators by name; `<>` and `!=` are one operator. -/
inductive OpName
  | eq | ne | lt | le | gt | ge
  | like | notLike
  | other (opno : ℕ)
deriving DecidableEq, Repr

inductive ElemValue
  | datum (d : Datum)
  | text (s : Text)
deriving DecidableEq, Repr

/-- The value of a constant that is not NULL.  NULL elements are `none`. -/
inductive ConstValue
  | datum (d : Datum)
  | text (s : Text)
  | array (ndim : ℕ) (elems : List (Option ElemValue))
deriving DecidableEq, Repr

/-- A `Const`; the type of an array constant is that of its elements. -/
structure ConstNode where
  typeOid : TypeOid
  value : Option ConstValue
deriving DecidableEq, Repr

inductive Operand
  | var (attno : ℤ) (vartype : TypeOid)
  | const (c : ConstNode)
  | relabel (arg : Operand)
  | other
deriving DecidableEq, Repr

inductive BoolOp
  | and | or | not
deriving DecidableEq, Repr

inductive QualNode
  | var (attno : ℤ) (vartype : TypeOid)
  | boolExpr (op : BoolOp) (args : List QualNode)
  | scalarArrayOp (useOr : Bool) (op : OpName) (args : List Operand)
  | opExpr (op : OpName) (args : List Operand)
  | other

/-- `RelabelType` is looked through once. -/
def Operand.unwrapRelabel : Operand → Operand
  | .relabel arg => arg
  | n => n

/-! ## The column vectors -/

/-- The dense vectors `load_parent_columns` fills. -/
structure ParentColumnLayout where
  names : List Text
  types : List TypeOid
deriving DecidableEq, Repr

def loadParentColumns (attrs : List Attr) : ParentColumnLayout where
  names := (liveAttrs attrs).map Attr.name
  types := (liveAttrs attrs).map fun a => a.dataType.typeOid

def varPosition (cols : ParentColumnLayout) (varattno : ℤ) : Option ℕ :=
  if varattno < 1 ∨ cols.names.length < varattno then none else some (varattno - 1).toNat

def ParentColumnLayout.typeAt (cols : ParentColumnLayout) (ci : ℕ) : TypeOid :=
  cols.types.getD ci (.other 0)

/-! ## Batch quals -/

inductive LikeStrategy
  | contains (s : Text)
  | startsWith (s : Text)
  | endsWith (s : Text)
  | exact (s : Text)
  | general (pattern : Text)
deriving DecidableEq, Repr

def compileLikePattern (pattern : Text) : LikeStrategy :=
  if '_' ∈ pattern ∨ '\\' ∈ pattern then .general pattern
  else match pattern.count '%' with
    | 0 => .exact pattern
    | 1 =>
        if pattern = ['%'] then .contains []
        else if pattern.head? = some '%' then .endsWith pattern.tail
        else if pattern.getLast? = some '%' then .startsWith pattern.dropLast
        else .general pattern
    | 2 =>
        if pattern.head? = some '%' ∧ pattern.getLast? = some '%' then
          .contains pattern.tail.dropLast
        else .general pattern
    | _ => .general pattern

/-- A `BatchQual` with its text parts. -/
structure PlanQual extends BatchQual where
  likeStrategy : Option LikeStrategy
  inListText : Option (List Text)
deriving DecidableEq, Repr

/-- `BatchQual::default()` on a column. -/
def PlanQual.ofColumn (ci : ℕ) (typeOid : TypeOid) : PlanQual where
  colIdx := ci
  op := .eq
  constDatum := 0
  typeOid := typeOid
  textConst := none
  inListI64 := none
  likeStrategy := none
  inListText := none

def parseCompareOp : OpName → Option BatchCompareOp
  | .eq => some .eq
  | .ne => some .ne
  | .lt => some .lt
  | .le => some .le
  | .gt => some .gt
  | .ge => some .ge
  | _ => none

def flipCompareOp : BatchCompareOp → BatchCompareOp
  | .lt => .gt
  | .le => .ge
  | .gt => .lt
  | .ge => .le
  | op => op

def isBatchComparableType : TypeOid → Bool
  | .int2 | .int4 | .int8 | .float4 | .float8 | .bool | .date | .timestamp | .timestamptz => true
  | _ => false

/-- Types an IN list of datums is taken for. -/
def isNumericIn : TypeOid → Bool
  | .int2 | .int4 | .int8 | .date | .timestamp | .timestamptz => true
  | _ => false

/-- The constant's word; for a by-reference constant it is an address, which
nothing below reads. -/
def ConstValue.word : ConstValue → Datum
  | .datum d => d
  | _ => 0

def ConstValue.asText : ConstValue → Option Text
  | .text s => some s
  | _ => none

def ElemValue.asDatum : ElemValue → Option Datum
  | .datum d => some d
  | _ => none

def ElemValue.asText : ElemValue → Option Text
  | .text s => some s
  | _ => none

/-- The qual of a bare or negated boolean column. -/
def extractBool (cols : ParentColumnLayout) (varattno : ℤ) (constDatum : Datum) :
    Option PlanQual := do
  let ci ← varPosition cols varattno
  if cols.typeAt ci = .bool then some { PlanQual.ofColumn ci .bool with constDatum := constDatum }
  else none

/-- The qual of `column op ANY(array)`; the operator is not looked at. -/
def extractAny (cols : ParentColumnLayout) (useOr : Bool) (args : List Operand) :
    Option PlanQual :=
  match useOr, args with
  | true, [arg0, .const ⟨_, some (.array ndim elems)⟩] =>
      match arg0.unwrapRelabel with
      | .var attno _ => do
          let ci ← varPosition cols attno
          let ty := cols.typeAt ci
          if ndim ≠ 1 ∨ elems = [] then none
          else if isNumericIn ty then do
            let vals ← elems.mapM fun e => e.bind ElemValue.asDatum
            some { PlanQual.ofColumn ci ty with op := .inList, inListI64 := some vals }
          else if isTextType ty then do
            let vals ← elems.mapM fun e => e.bind ElemValue.asText
            some { PlanQual.ofColumn ci ty with op := .inList, inListText := some vals }
          else none
      | _ => none
  | _, _ => none

/-- `(var, const, var_on_left)` of a comparison, in either order. -/
def varAndConst : Operand → Operand → Option (ℤ × ConstNode × Bool)
  | .var attno _, .const c => some (attno, c, true)
  | .const c, .var attno _ => some (attno, c, false)
  | _, _ => none

/-- The operators that are recognized: LIKE, NOT LIKE and the comparisons. -/
def recognizedOp : OpName → Option BatchCompareOp
  | .like => some .like
  | .notLike => some .notLike
  | op => parseCompareOp op

def comparisonQual (ci : ℕ) (ty : TypeOid) (cmp : BatchCompareOp) (value : ConstValue)
    (varOnLeft : Bool) : Option PlanQual :=
  if cmp = .like ∨ cmp = .notLike then
    if varOnLeft && isTextType ty then
      value.asText.map fun pattern =>
        { PlanQual.ofColumn ci ty with
          op := cmp, constDatum := value.word, likeStrategy := some (compileLikePattern pattern) }
    else none
  else if (ty = .text ∨ ty = .varchar) ∧ (cmp = .eq ∨ cmp = .ne) then
    if varOnLeft then
      value.asText.map fun s =>
        { PlanQual.ofColumn ci ty with op := cmp, constDatum := value.word, textConst := some s }
    else none
  else if isBatchComparableType ty then
    some { PlanQual.ofColumn ci ty with
      op := if varOnLeft then cmp else flipCompareOp cmp, constDatum := value.word }
  else none

/-- The qual of an `OpExpr`. -/
def extractComparison (cols : ParentColumnLayout) (op : OpName) (args : List Operand) :
    Option PlanQual :=
  match args with
  | [raw0, raw1] => do
      let cmp ← recognizedOp op
      let found ← varAndConst raw0.unwrapRelabel raw1.unwrapRelabel
      let value ← found.2.1.value
      let ci ← varPosition cols found.1
      comparisonQual ci (cols.typeAt ci) cmp value found.2.2
  | _ => none

def extractNode (cols : ParentColumnLayout) : QualNode → Option PlanQual
  | .var attno _ => extractBool cols attno 1
  | .boolExpr .not [.var attno _] => extractBool cols attno 0
  | .boolExpr _ _ => none
  | .scalarArrayOp useOr _ args => extractAny cols useOr args
  | .opExpr op args => extractComparison cols op args
  | .other => none

/-- Only an `OpExpr` that gave a qual counts as handled. -/
def QualNode.isOpExpr : QualNode → Bool
  | .opExpr _ _ => true
  | _ => false

def extractBatchQuals (cols : ParentColumnLayout) (qualList : List QualNode) :
    List PlanQual × ℕ :=
  (qualList.filterMap (extractNode cols),
    (qualList.filter fun n => n.isOpExpr && (extractNode cols n).isSome).length)

/-! ## Segment filters -/

inductive SegmentFilter
  | segmentBy (ci svIdx : ℕ) (value : Text)
  | timeMin (ci : ℕ) (lo : ℤ)
  | timeMax (ci : ℕ) (hi : ℤ)
deriving DecidableEq, Repr

def SegmentFilter.colIdx : SegmentFilter → ℕ
  | .segmentBy ci _ _ => ci
  | .timeMin ci _ => ci
  | .timeMax ci _ => ci

/-- `saturating_add(1)`. -/
def saturatingSucc (v : ℤ) : ℤ := min (v + 1) 9223372036854775807

def flipOpName : OpName → OpName
  | .lt => .gt
  | .le => .ge
  | .gt => .lt
  | .ge => .le
  | op => op

/-- The position of a segment-by column among the segment values. -/
def segValIndex (cols : ParentColumnLayout) (s : Settings) (ci : ℕ) : Option ℕ :=
  ((number (fun name => decide (name ∈ s.segmentBy)) 0 cols.names)[ci]?).join

/-- The filters one node adds.  `constOut` is the output function of the
constant's type; arguments are taken as they are, without a relabelling. -/
def nodeFilters (constOut : ConstNode → Text) (cols : ParentColumnLayout) (s : Settings) :
    QualNode → List SegmentFilter
  | .opExpr op [arg0, arg1] =>
      match varAndConst arg0 arg1 with
      | some (attno, ⟨ty, some value⟩, varOnLeft) =>
          match varPosition cols attno with
          | none => []
          | some ci =>
              let bySegment :=
                if op = .eq then
                  match segValIndex cols s ci with
                  | some sv => [SegmentFilter.segmentBy ci sv (constOut ⟨ty, some value⟩)]
                  | none => []
                else []
              let tsVal := value.word.toInt
              let byTime :=
                if cols.names[ci]? = some s.timeColumn then
                  match if varOnLeft then op else flipOpName op with
                  | .ge => [SegmentFilter.timeMin ci tsVal]
                  | .gt => [SegmentFilter.timeMin ci (saturatingSucc tsVal)]
                  | .lt => [SegmentFilter.timeMax ci tsVal]
                  | .le => [SegmentFilter.timeMax ci (saturatingSucc tsVal)]
                  | _ => []
                else []
              bySegment ++ byTime
      | _ => []
  | _ => []

/-- One more filter on the running `(segment_by_filters, time_min, time_max)`. -/
def addFilter (found : List (ℕ × Text) × Option ℤ × Option ℤ) :
    SegmentFilter → List (ℕ × Text) × Option ℤ × Option ℤ
  | .segmentBy _ sv value => (found.1 ++ [(sv, value)], found.2.1, found.2.2)
  | .timeMin _ lo => (found.1, some (match found.2.1 with | some l => max l lo | none => lo), found.2.2)
  | .timeMax _ hi => (found.1, found.2.1, some (match found.2.2 with | some h => min h hi | none => hi))

def extractSegmentFilters (constOut : ConstNode → Text) (cols : ParentColumnLayout)
    (s : Settings) (qualList : List QualNode) : List (ℕ × Text) × Option ℤ × Option ℤ :=
  (qualList.flatMap (nodeFilters constOut cols s)).foldl addFilter ([], none, none)

/-! ## The Top-N sort column -/

/-- `topn_sort_col` of `begin_deltax_append`; attno 0 stands for the time column. -/
def topnSortCol (cols : ParentColumnLayout) (timeColumn : Text) (topnLimit sortColAttno : ℤ) :
    Option ℕ :=
  if 0 < topnLimit ∧ 0 < sortColAttno then
    let idx := (sortColAttno - 1).toNat
    if idx < cols.names.length then some idx else none
  else if 0 < topnLimit then cols.names.findIdx? fun n => decide (n = timeColumn)
  else none

/-! ## Which column is addressed -/

/-- The attribute number of the `Var` a node compares. -/
def QualNode.varAttno : QualNode → Option ℤ
  | .var attno _ => some attno
  | .boolExpr .not [.var attno _] => some attno
  | .boolExpr _ _ => none
  | .scalarArrayOp _ _ [arg0, _] =>
      match arg0.unwrapRelabel with
      | .var attno _ => some attno
      | _ => none
  | .opExpr _ [raw0, raw1] => (varAndConst raw0.unwrapRelabel raw1.unwrapRelabel).map Prod.fst
  | _ => none

/-- The column at a position of the dense vectors has the attribute number. -/
def Named (attrs : List Attr) (pos : ℕ) (attno : ℤ) : Prop :=
  ((liveAttrs attrs)[pos]?).map (fun a => (a.attnum : ℤ)) = some attno

/-- Nothing extracted for a `Var` is about another column: neither a batch qual,
nor a segment filter, nor the sort column of a Top-N scan. -/
structure AddressesNamed (t : Table) (attno : ℤ) : Prop where
  batchQuals : ∀ node q, node.varAttno = some attno →
    extractNode (loadParentColumns t.attrs) node = some q → Named t.attrs q.colIdx attno
  segmentFilters : ∀ constOut s node f, node.varAttno = some attno →
    f ∈ nodeFilters constOut (loadParentColumns t.attrs) s node → Named t.attrs f.colIdx attno
  sortColumn : ∀ timeColumn topnLimit pos, 0 < topnLimit →
    topnSortCol (loadParentColumns t.attrs) timeColumn topnLimit attno = some pos →
    Named t.attrs pos attno

theorem extractBool_colIdx {cols : ParentColumnLayout} {attno : ℤ} {d : Datum} {q : PlanQual}
    (h : extractBool cols attno d = some q) : varPosition cols attno = some q.colIdx := by
  cases hpos : varPosition cols attno with
  | none => simp [extractBool, hpos] at h
  | some ci =>
      simp only [extractBool, hpos, Option.bind_eq_bind, Option.bind_some] at h
      split at h
      · rw [← Option.some.inj h]
        rfl
      · cases h

theorem extractAny_colIdx {cols : ParentColumnLayout} {useOr : Bool} {arg0 arg1 : Operand}
    {attno : ℤ} {ty : TypeOid} {q : PlanQual} (harg : arg0.unwrapRelabel = .var attno ty)
    (h : extractAny cols useOr [arg0, arg1] = some q) :
    varPosition cols attno = some q.colIdx := by
  unfold extractAny at h
  split at h
  · rename_i heq
    obtain ⟨rfl, -⟩ := List.cons.inj heq
    rw [harg] at h
    cases hpos : varPosition cols attno with
    | none => simp [hpos] at h
    | some ci =>
        simp only [hpos, Option.bind_eq_bind, Option.bind_some] at h
        split at h
        · cases h
        · split at h
          · obtain ⟨vals, -, hq⟩ := Option.bind_eq_some_iff.mp h
            rw [← Option.some.inj hq]
            rfl
          · split at h
            · obtain ⟨vals, -, hq⟩ := Option.bind_eq_some_iff.mp h
              rw [← Option.some.inj hq]
              rfl
            · cases h
  · cases h

theorem comparisonQual_colIdx {ci : ℕ} {ty : TypeOid} {cmp : BatchCompareOp} {value : ConstValue}
    {varOnLeft : Bool} {q : PlanQual} (h : comparisonQual ci ty cmp value varOnLeft = some q) :
    q.colIdx = ci := by
  unfold comparisonQual at h
  split at h
  · split at h
    · obtain ⟨pattern, -, rfl⟩ := Option.map_eq_some_iff.mp h
      rfl
    · cases h
  · split at h
    · split at h
      · obtain ⟨text, -, rfl⟩ := Option.map_eq_some_iff.mp h
        rfl
      · cases h
    · split at h
      · rw [← Option.some.inj h]
        rfl
      · cases h

theorem extractComparison_colIdx {cols : ParentColumnLayout} {op : OpName}
    {raw0 raw1 : Operand} {found : ℤ × ConstNode × Bool} {q : PlanQual}
    (hargs : varAndConst raw0.unwrapRelabel raw1.unwrapRelabel = some found)
    (h : extractComparison cols op [raw0, raw1] = some q) :
    varPosition cols found.1 = some q.colIdx := by
  simp only [extractComparison, Option.bind_eq_bind] at h
  obtain ⟨cmp, -, h⟩ := Option.bind_eq_some_iff.mp h
  rw [hargs, Option.bind_some] at h
  obtain ⟨value, -, h⟩ := Option.bind_eq_some_iff.mp h
  obtain ⟨ci, hpos, h⟩ := Option.bind_eq_some_iff.mp h
  rw [hpos, comparisonQual_colIdx h]

/-- A batch qual is on the position its `Var` is given. -/
theorem extractNode_colIdx {cols : ParentColumnLayout} {node : QualNode} {attno : ℤ}
    {q : PlanQual} (hvar : node.varAttno = some attno) (h : extractNode cols node = some q) :
    varPosition cols attno = some q.colIdx := by
  unfold extractNode at h
  split at h
  · rw [QualNode.varAttno, Option.some.injEq] at hvar
    exact extractBool_colIdx (hvar ▸ h)
  · rw [QualNode.varAttno, Option.some.injEq] at hvar
    exact extractBool_colIdx (hvar ▸ h)
  · cases h
  · rename_i useOr op args
    match args with
    | [arg0, arg1] =>
        simp only [QualNode.varAttno] at hvar
        split at hvar
        · rename_i harg
          rw [Option.some.injEq] at hvar
          exact extractAny_colIdx (hvar ▸ harg) h
        · cases hvar
    | [] => cases hvar
    | [_] => cases hvar
    | _ :: _ :: _ :: _ => cases hvar
  · rename_i op args
    match args with
    | [raw0, raw1] =>
        simp only [QualNode.varAttno, Option.map_eq_some_iff] at hvar
        obtain ⟨found, hargs, rfl⟩ := hvar
        exact extractComparison_colIdx hargs h
    | [] => cases hvar
    | [_] => cases hvar
    | _ :: _ :: _ :: _ => cases hvar
  · cases h

theorem varAndConst_unwrapRelabel {arg0 arg1 : Operand} {found : ℤ × ConstNode × Bool}
    (h : varAndConst arg0 arg1 = some found) :
    varAndConst arg0.unwrapRelabel arg1.unwrapRelabel = some found := by
  unfold varAndConst at h
  split at h
  · exact h
  · exact h
  · cases h

/-- A segment filter is on the position its `Var` is given. -/
theorem nodeFilters_colIdx {constOut : ConstNode → Text} {cols : ParentColumnLayout}
    {s : Settings} {node : QualNode} {attno : ℤ} {f : SegmentFilter}
    (hvar : node.varAttno = some attno) (h : f ∈ nodeFilters constOut cols s node) :
    varPosition cols attno = some f.colIdx := by
  unfold nodeFilters at h
  split at h
  · split at h
    · rename_i found hargs
      simp only [QualNode.varAttno, varAndConst_unwrapRelabel hargs, Option.map_some,
        Option.some.injEq] at hvar
      rw [← hvar]
      split at h
      · cases h
      · rename_i ci hpos
        rw [hpos]
        rcases List.mem_append.mp h with hseg | htime
        · split at hseg
          · split at hseg
            · rw [List.mem_singleton.mp hseg]
              rfl
            · cases hseg
          · cases hseg
        · split at htime
          · split at htime
            · rw [List.mem_singleton.mp htime]
              rfl
            · rw [List.mem_singleton.mp htime]
              rfl
            · rw [List.mem_singleton.mp htime]
              rfl
            · rw [List.mem_singleton.mp htime]
              rfl
            · cases htime
          · cases htime
    · cases h
  · cases h

theorem topnSortCol_eq_varPosition {cols : ParentColumnLayout} {timeColumn : Text}
    {topnLimit attno : ℤ} (hlimit : 0 < topnLimit) (hattno : 0 < attno) :
    topnSortCol cols timeColumn topnLimit attno = varPosition cols attno := by
  unfold topnSortCol varPosition
  rw [if_pos ⟨hlimit, hattno⟩]
  by_cases hlen : cols.names.length < attno
  · rw [if_neg (by omega), if_pos (Or.inr hlen)]
  · rw [if_pos (by omega), if_neg (by omega)]

theorem before_eq_self_iff {α : Type*} {p : α → Bool} {xs : List α} {k : ℕ}
    (hk : k ≤ xs.length) : before p xs k = k ↔ ∀ x ∈ xs.take k, p x = true := by
  have hlen : (xs.take k).length = k := List.length_take_of_le hk
  calc
    before p xs k = k ↔ ((xs.take k).filter p).length = (xs.take k).length := by
      rw [before, hlen]
    _ ↔ ∀ x ∈ xs.take k, p x = true := List.length_filter_eq_length_iff

section named

variable {t : Table} {x : Attr}

theorem nodup_attnum_live : ((liveAttrs t.attrs).map Attr.attnum).Nodup := by
  have hall : (t.attrs.map Attr.attnum).Nodup := t.attnum_eq ▸ List.nodup_range'
  exact hall.sublist ((List.filter_sublist).map _)

/-- A live column stands in the dense vectors after the live ones before it. -/
theorem getElem?_live (hx : x ∈ liveAttrs t.attrs) :
    (liveAttrs t.attrs)[before (fun a : Attr => !a.dropped) t.attrs (x.attnum - 1)]? = some x := by
  obtain ⟨hmem, hlive⟩ := List.mem_filter.mp hx
  exact getElem?_filter_before (getElem?_of_attnum t.attnum_eq hmem).2.2 hlive

theorem named_iff (hx : x ∈ liveAttrs t.attrs) (pos : ℕ) :
    Named t.attrs pos x.attnum ↔
      pos = before (fun a : Attr => !a.dropped) t.attrs (x.attnum - 1) := by
  unfold Named
  constructor
  · intro h
    obtain ⟨y, hy, hnum⟩ := Option.map_eq_some_iff.mp h
    have hy' := getElem?_live hx
    obtain ⟨hpos, -⟩ := List.getElem?_eq_some_iff.mp hy
    have hnums : ((liveAttrs t.attrs).map Attr.attnum)[pos]? =
        ((liveAttrs t.attrs).map Attr.attnum)[before (fun a : Attr => !a.dropped) t.attrs
          (x.attnum - 1)]? := by
      rw [List.getElem?_map, List.getElem?_map, hy, hy', Option.map_some, Option.map_some,
        Option.some.injEq]
      exact_mod_cast hnum
    exact (List.getElem?_inj (by simpa using hpos) nodup_attnum_live).mp hnums
  · rintro rfl
    rw [getElem?_live hx, Option.map_some]

/-- Subtracting one gives the position when no column before is dropped. -/
theorem named_pred_iff (hx : x ∈ liveAttrs t.attrs) :
    Named t.attrs (x.attnum - 1) x.attnum ↔
      ∀ b ∈ t.attrs, b.attnum < x.attnum → b.dropped = false := by
  obtain ⟨hmem, -⟩ := List.mem_filter.mp hx
  obtain ⟨hone, hle, hget⟩ := getElem?_of_attnum t.attnum_eq hmem
  rw [named_iff hx, eq_comm, before_eq_self_iff (by omega)]
  constructor
  · intro h b hb hlt
    obtain ⟨hbone, hble, hbget⟩ := getElem?_of_attnum t.attnum_eq hb
    have htake : (t.attrs.take (x.attnum - 1))[b.attnum - 1]? = some b := by
      rw [List.getElem?_take_of_lt (by omega), hbget]
    simpa using h b (List.mem_of_getElem? htake)
  · intro h b hb
    obtain ⟨i, hi, hbi⟩ := List.mem_take_iff_getElem.mp hb
    have hbmem : b ∈ t.attrs := hbi ▸ List.getElem_mem _
    have hbget := (getElem?_of_attnum t.attnum_eq hbmem).2.2
    have hbone := (getElem?_of_attnum t.attnum_eq hbmem).1
    have hnodup : (t.attrs.map Attr.attnum).Nodup := t.attnum_eq ▸ List.nodup_range'
    have hib : i = b.attnum - 1 := by
      have hilt : i < t.attrs.length := by omega
      apply (List.getElem?_inj hilt hnodup.of_map).mp
      rw [hbget, List.getElem?_eq_getElem hilt, hbi]
    simpa using h b hbmem (by omega)

end named

/-- What is extracted for a live column is about that column exactly when no
attribute before it is dropped, or its number is past the dense vectors and
everything is left to the executor.  The vectors are the ones `load_parent_columns` fills;
the columns that `load_metadata` appends for `json_extract` are not among them. -/
theorem addressesNamed_iff (t : Table) {x : Attr} (hx : x ∈ liveAttrs t.attrs) :
    AddressesNamed t x.attnum ↔
      (∀ b ∈ t.attrs, b.attnum < x.attnum → b.dropped = false) ∨
        (liveAttrs t.attrs).length < x.attnum := by
  obtain ⟨hmem, -⟩ := List.mem_filter.mp hx
  obtain ⟨hone, -, -⟩ := getElem?_of_attnum t.attnum_eq hmem
  have hlen : (loadParentColumns t.attrs).names.length = (liveAttrs t.attrs).length :=
    List.length_map _
  have hpos : varPosition (loadParentColumns t.attrs) x.attnum =
      if (liveAttrs t.attrs).length < x.attnum then none else some (x.attnum - 1) := by
    unfold varPosition
    rw [hlen]
    by_cases h : (liveAttrs t.attrs).length < x.attnum
    · rw [if_pos (by omega), if_pos h]
    · rw [if_neg (by omega), if_neg h]
      congr 1
      omega
  by_cases hpast : (liveAttrs t.attrs).length < x.attnum
  · rw [if_pos hpast] at hpos
    apply iff_of_true _ (Or.inr hpast)
    constructor
    · intro node q hvar hq
      rw [extractNode_colIdx hvar hq] at hpos
      cases hpos
    · intro constOut s node f hvar hf
      rw [nodeFilters_colIdx hvar hf] at hpos
      cases hpos
    · intro timeColumn topnLimit pos hlimit hsort
      rw [topnSortCol_eq_varPosition hlimit (by omega), hpos] at hsort
      cases hsort
  · rw [if_neg hpast] at hpos
    rw [or_iff_left hpast, ← named_pred_iff hx]
    constructor
    · intro h
      apply h.sortColumn [] 1 _ Int.one_pos
      rw [topnSortCol_eq_varPosition Int.one_pos (by omega), hpos]
    · intro hnamed
      constructor
      · intro node q hvar hq
        rw [extractNode_colIdx hvar hq, Option.some.injEq] at hpos
        rwa [hpos]
      · intro constOut s node f hvar hf
        rw [nodeFilters_colIdx hvar hf, Option.some.injEq] at hpos
        rwa [hpos]
      · intro timeColumn topnLimit pos hlimit hsort
        rw [topnSortCol_eq_varPosition hlimit (by omega), hpos, Option.some.injEq] at hsort
        rwa [← hsort]

def tsColumn : Attr := ⟨1, "ts".toList, .timestamptz, -1, false, none⟩

def droppedColumn : Attr := ⟨2, "a".toList, .integer, -1, true, none⟩

def bColumn : Attr := ⟨3, "b".toList, .integer, -1, false, none⟩

def cColumn : Attr := ⟨4, "c".toList, .integer, -1, false, none⟩

/-- `(ts, a, b, c)` after `DROP COLUMN a`. -/
def holeTable : Table where
  attrs := [tsColumn, droppedColumn, bColumn, cColumn]
  attnum_eq := rfl
  names_nodup := by decide

theorem addressesNamed_before_hole : AddressesNamed holeTable 1 :=
  (addressesNamed_iff holeTable (x := tsColumn) (by decide)).mpr (Or.inl (by decide))

/-- `WHERE b = 7` is evaluated on `c`. -/
theorem not_addressesNamed_after_hole : ¬ AddressesNamed holeTable 3 := by
  intro h
  have hqual := h.batchQuals (.opExpr .eq [.var 3 .int4, .const ⟨.int4, some (.datum 7)⟩])
    { PlanQual.ofColumn 2 .int4 with constDatum := 7 } rfl rfl
  revert hqual
  unfold Named
  decide

end DeltaX.Scan
