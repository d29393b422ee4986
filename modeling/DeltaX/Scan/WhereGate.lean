import DeltaX.Scan.BatchFilter
/-!
# The WHERE clause of a pushed-down aggregate

Two recognisers read the qual list of an aggregate: the planner's gate decides
whether every node can be pushed down, and `extract_batch_quals` turns the nodes
into the quals that are the only filter afterwards.  Here both are put beside the
meaning of the nodes in SQL, and a list is followed from the gate to the rows.
-/

namespace DeltaX.Scan

open Column Schema MinMax Support.KeySpan Support.Wildcard

/-! ## The gate -/

/-- `resolve_var_or_json_extract_type`: one more relabelling is looked through. -/
def resolveVarType (n : Operand) : Option TypeOid :=
  match n.unwrapRelabel with
  | .var _ ty => some ty
  | _ => none

/-- `(type_oid, var_on_left, const_node)` of a comparison. -/
def gateOperands (a0 a1 : Operand) : Option (TypeOid × Bool × ConstNode) :=
  match resolveVarType a0, a1 with
  | some ty, .const c => some (ty, true, c)
  | _, _ =>
      match resolveVarType a1, a0 with
      | some ty, .const c => some (ty, false, c)
      | _, _ => none

def gateComparison (op : OpName) (raw0 raw1 : Operand) : Bool :=
  match recognizedOp op, gateOperands raw0.unwrapRelabel raw1.unwrapRelabel with
  | some cmp, some (ty, varOnLeft, c) =>
      c.value.isSome &&
        if cmp = .like ∨ cmp = .notLike then varOnLeft && isTextType ty
        else if (ty = .text ∨ ty = .varchar) ∧ (cmp = .eq ∨ cmp = .ne) then varOnLeft
        else isBatchComparableType ty
  | _, _ => false

/-- The gate on `column op ANY(array)`; the operator is not looked at. -/
def gateAny (useOr : Bool) (args : List Operand) : Bool :=
  match useOr, args with
  | true, [arg0, .const c] =>
      c.value.isSome && match resolveVarType arg0.unwrapRelabel with
        | some ty => isNumericIn ty || isTextType ty
        | none => false
  | _, _ => false

/-- What `deltax_create_upper_paths` accepts of a WHERE clause. -/
def gateNode : QualNode → Bool
  | .opExpr op [raw0, raw1] => gateComparison op raw0 raw1
  | .var _ ty => decide (ty = .bool)
  | .boolExpr .not [.var _ ty] => decide (ty = .bool)
  | .boolExpr .and _ => true
  | .scalarArrayOp useOr _ args => gateAny useOr args
  | _ => false

/-! ## The meaning of a node -/

def ElemValue.HasType (v : ElemValue) (ty : TypeOid) : Prop :=
  match v with
  | .datum _ => isTextType ty = false
  | .text _ => isTextType ty = true

structure Row (t : Table) where
  cell : ℤ → Option ElemValue
  typed : ∀ a ∈ liveAttrs t.attrs, ∀ v, cell a.attnum = some v → v.HasType a.dataType.typeOid

/-- What PostgreSQL does with the operands, nodes and operators not told apart here. -/
structure Outside (t : Table) where
  operand : Row t → Option ElemValue
  node : Row t → Option Bool
  operator : OpName → TypeOid → TypeOid → ElemValue → ElemValue → Option Bool

def isInteger : TypeOid → Bool
  | .int2 | .int4 | .int8 => true
  | _ => false

def isVarText : TypeOid → Bool
  | .text | .varchar => true
  | _ => false

/-- Types whose words are compared by `sqlKey`: one type, or two integer types. -/
def sameKeys (l r : TypeOid) : Bool :=
  (decide (l = r) && isBatchComparableType l) || (isInteger l && isInteger r)

def OpName.comparison (op : OpName) : Option Comparison :=
  (parseCompareOp op).bind BatchCompareOp.comparison

instance (text pattern : Text) : Decidable (SqlLike text pattern) :=
  decidable_of_iff (backtrack text (likeTokens pattern) none = true)
    (backtrack_none_iff text (likeTokens pattern))

section meaning

variable {t : Table} (o : Outside t)

def sqlOperator (op : OpName) (lt rt : TypeOid) (l r : ElemValue) : Option Bool :=
  match l, r with
  | .datum a, .datum b =>
      match op.comparison with
      | some cmp =>
          if sameKeys lt rt then some (decide (cmp.Holds (sqlKey lt a) (sqlKey rt b)))
          else o.operator op lt rt l r
      | none => o.operator op lt rt l r
  | .text s, .text p =>
      match op with
      | .eq => if isVarText lt && isVarText rt then some (decide (s = p)) else o.operator op lt rt l r
      | .ne => if isVarText lt && isVarText rt then some (decide (s ≠ p)) else o.operator op lt rt l r
      | .like =>
          if isTextType lt && isVarText rt then some (decide (SqlLike s p))
          else o.operator op lt rt l r
      | .notLike =>
          if isTextType lt && isVarText rt then some (decide (¬ SqlLike s p))
          else o.operator op lt rt l r
      | _ => o.operator op lt rt l r
  | _, _ => o.operator op lt rt l r

def ConstValue.elem : ConstValue → Option ElemValue
  | .datum d => some (.datum d)
  | .text s => some (.text s)
  | .array _ _ => none

def Operand.value (row : Row t) : Operand → Option ElemValue
  | .var attno _ => row.cell attno
  | .const c => c.value.bind ConstValue.elem
  | .relabel arg => arg.value row
  | .other => o.operand row

def Operand.typeOid : Operand → TypeOid
  | .var _ ty => ty
  | .const c => c.typeOid
  | .relabel arg => arg.typeOid
  | .other => .other 0

def sqlApply (op : OpName) (lt rt : TypeOid) (l r : Option ElemValue) : Option Bool :=
  match l, r with
  | some l, some r => sqlOperator o op lt rt l r
  | _, _ => none

/-- Disjunction of three-valued results. -/
def anyTrue (results : List (Option Bool)) : Option Bool :=
  if some true ∈ results then some true else if none ∈ results then none else some false

/-- Conjunction of three-valued results. -/
def allTrue (results : List (Option Bool)) : Option Bool :=
  if some false ∈ results then some false else if none ∈ results then none else some true

def sqlArrayOp (useOr : Bool) (op : OpName) (lt rt : TypeOid) (l : Option ElemValue)
    (elems : List (Option ElemValue)) : Option Bool :=
  let results := elems.map fun e => sqlApply o op lt rt l e
  if useOr then anyTrue results else allTrue results

mutual

def QualNode.eval (row : Row t) : QualNode → Option Bool
  | .var attno _ => (row.cell attno).bind fun v => v.asDatum.map fun d => decide (d ≠ 0)
  | .boolExpr .and args => allTrue (evalNodes row args)
  | .boolExpr .or args => anyTrue (evalNodes row args)
  | .boolExpr .not args =>
      match evalNodes row args with
      | [r] => r.map not
      | _ => none
  | .scalarArrayOp useOr op [arg0, .const ⟨ety, some (.array _ elems)⟩] =>
      sqlArrayOp o useOr op arg0.typeOid ety (arg0.value o row) elems
  | .scalarArrayOp _ _ _ => o.node row
  | .opExpr op [a, b] => sqlApply o op a.typeOid b.typeOid (a.value o row) (b.value o row)
  | .opExpr _ _ => o.node row
  | .other => o.node row

def evalNodes (row : Row t) : List QualNode → List (Option Bool)
  | [] => []
  | n :: ns => n.eval row :: evalNodes row ns

end

end meaning

/-! ## The same filter -/

/-- The value the executor finds under a position of the dense vectors. -/
def Row.column {t : Table} (row : Row t) (ci : ℕ) : Option ElemValue :=
  (liveAttrs t.attrs)[ci]?.bind fun a => row.cell a.attnum

/-- No clause is lost or changed: every node yields a qual, which selects the rows
the node is true for, and all quals together select the rows of the conjunction. -/
structure SameFilter {t : Table} (o : Outside t) (nodes : List QualNode) : Prop where
  yields : ∀ n ∈ nodes, ∃ q, extractNode (loadParentColumns t.attrs) n = some q
  selects : ∀ n ∈ nodes, ∀ q, extractNode (loadParentColumns t.attrs) n = some q →
    ∀ row : Row t, q.selects (row.column q.colIdx) = true ↔ n.eval o row = some true
  conjunction : ∀ row : Row t,
    (∀ q ∈ (extractBatchQuals (loadParentColumns t.attrs) nodes).1,
      q.selects (row.column q.colIdx) = true) ↔ ∀ n ∈ nodes, n.eval o row = some true

/-! ## What the planner promises -/

def ConstNode.Typed (c : ConstNode) : Prop :=
  match c.value with
  | some (.datum d) => (ElemValue.datum d).HasType c.typeOid
  | some (.text s) => (ElemValue.text s).HasType c.typeOid
  | some (.array _ elems) => ∀ e ∈ elems, ∀ v, e = some v → v.HasType c.typeOid
  | none => True

def IsColumn (t : Table) (attno : ℤ) (ty : TypeOid) : Prop :=
  ∃ a ∈ liveAttrs t.attrs, (a.attnum : ℤ) = attno ∧ a.dataType.typeOid = ty

def Operand.Over (t : Table) : Operand → Prop
  | .var attno ty => IsColumn t attno ty
  | .const c => c.Typed
  | .relabel arg => arg.Over t
  | .other => True

/-- The columns a node names are the table's, and its constants are of their types. -/
def QualNode.Over (t : Table) : QualNode → Prop
  | .var attno ty => IsColumn t attno ty
  | .boolExpr .not [.var attno ty] => IsColumn t attno ty
  | .scalarArrayOp _ _ args => ∀ a ∈ args, a.Over t
  | .opExpr _ args => ∀ a ∈ args, a.Over t
  | _ => True

/-! ## What is read right -/

def NoHole (t : Table) (attno : ℤ) : Prop :=
  ∀ b ∈ t.attrs, (b.attnum : ℤ) < attno → b.dropped = false

/-- The word of a constant, read at the column's type, is the constant. -/
def ReadsAs (ty cty : TypeOid) (d : Datum) : Prop :=
  sameKeys ty cty = true ∧ sqlKey ty d = sqlKey cty d

/-- A pattern PostgreSQL takes, without `_` but for an escaped one. -/
def PlainPattern (pattern : Text) : Prop :=
  .any ∉ likeTokens pattern ∧ .never ∉ likeTokens pattern

/-- An element of an array that is compared as SQL does. -/
def ReadableElem (ty ety : TypeOid) : ElemValue → Prop
  | .datum d => ReadsAs ty ety d
  | .text _ => isVarText ty = true ∧ isVarText ety = true

/-- A constant that is compared as SQL does; `cmp` has the column on its left. -/
def ReadableConst (ty : TypeOid) (op : BatchCompareOp) (cty : TypeOid) : ConstValue → Prop
  | .datum d => ReadsAs ty cty d ∧ ∀ cmp, op.comparison = some cmp → ExactComparison ty cmp d
  | .text s =>
      isTextType ty = true ∧ isVarText cty = true ∧ (op = .like ∨ op = .notLike → PlainPattern s)
  | .array _ _ => False

/-- A column under at most one relabelling and a constant, in either order. -/
def columnAndConst (raw0 raw1 : Operand) : Option (ℤ × TypeOid × ConstNode × Bool) :=
  match raw0.unwrapRelabel, raw1.unwrapRelabel with
  | .var attno ty, .const c => some (attno, ty, c, true)
  | .const c, .var attno ty => some (attno, ty, c, false)
  | _, _ => none

/-- The nodes both recognisers read as SQL does. -/
def Readable (t : Table) : QualNode → Prop
  | .var attno _ => NoHole t attno
  | .boolExpr .not [.var attno _] => NoHole t attno
  | .scalarArrayOp _ op [arg0, .const ⟨ety, some (.array ndim elems)⟩] =>
      ∃ attno ty, arg0.unwrapRelabel = .var attno ty ∧ NoHole t attno ∧ op = .eq ∧ ndim = 1 ∧
        elems ≠ [] ∧ ∀ e ∈ elems, ∃ v, e = some v ∧ ReadableElem ty ety v
  | .opExpr op [raw0, raw1] =>
      ∃ attno ty c varOnLeft value, columnAndConst raw0 raw1 = some (attno, ty, c, varOnLeft) ∧
        NoHole t attno ∧ c.value = some value ∧
        ∀ cmp, recognizedOp op = some cmp →
          ReadableConst ty (if varOnLeft then cmp else flipCompareOp cmp) c.typeOid value
  | _ => False

/-! ## Types -/

theorem isTextType_of_isVarText {ty : TypeOid} (h : isVarText ty = true) :
    isTextType ty = true := by
  cases ty <;> first | rfl | cases h

theorem not_isTextType_of_isNumericIn {ty : TypeOid} (h : isNumericIn ty = true) :
    isTextType ty = false := by
  cases ty <;> first | rfl | cases h

theorem not_isTextType_of_isBatchComparableType {ty : TypeOid}
    (h : isBatchComparableType ty = true) : isTextType ty = false := by
  cases ty <;> first | rfl | cases h

theorem not_isTextType_of_isInteger {ty : TypeOid} (h : isInteger ty = true) :
    isTextType ty = false := by
  cases ty <;> first | rfl | cases h

theorem not_isTextType_of_sameKeys {l r : TypeOid} (h : sameKeys l r = true) :
    isTextType l = false := by
  rcases Bool.or_eq_true_iff.mp h with h | h
  · exact not_isTextType_of_isBatchComparableType (Bool.and_eq_true_iff.mp h).2
  · exact not_isTextType_of_isInteger (Bool.and_eq_true_iff.mp h).1

theorem sameKeys_comm {l r : TypeOid} (h : sameKeys l r = true) : sameKeys r l = true := by
  rcases Bool.or_eq_true_iff.mp h with h | h
  · obtain ⟨heq, hty⟩ := Bool.and_eq_true_iff.mp h
    obtain rfl := of_decide_eq_true heq
    exact Bool.or_eq_true_iff.mpr (Or.inl (Bool.and_eq_true_iff.mpr ⟨heq, hty⟩))
  · obtain ⟨hl, hr⟩ := Bool.and_eq_true_iff.mp h
    exact Bool.or_eq_true_iff.mpr (Or.inr (Bool.and_eq_true_iff.mpr ⟨hr, hl⟩))

/-! ## Columns -/

section columns

variable {t : Table} {attno : ℤ} {ty : TypeOid}

/-- Without a hole before it, a column stands one place before its number. -/
theorem getElem?_live_pred {x : Attr} (hx : x ∈ liveAttrs t.attrs)
    (hhole : NoHole t x.attnum) : (liveAttrs t.attrs)[x.attnum - 1]? = some x := by
  have hnamed : Named t.attrs (x.attnum - 1) x.attnum := by
    rw [named_pred_iff hx]
    intro b hb hlt
    exact hhole b hb (by exact_mod_cast hlt)
  rw [(named_iff hx _).mp hnamed]
  exact getElem?_live hx

theorem IsColumn.position (hcol : IsColumn t attno ty) (hhole : NoHole t attno) :
    ∃ ci, varPosition (loadParentColumns t.attrs) attno = some ci ∧
      (loadParentColumns t.attrs).typeAt ci = ty ∧ ∀ row : Row t, row.column ci = row.cell attno := by
  obtain ⟨x, hx, rfl, rfl⟩ := hcol
  have hget := getElem?_live_pred hx hhole
  obtain ⟨hlt, -⟩ := List.getElem?_eq_some_iff.mp hget
  obtain ⟨hmem, -⟩ := List.mem_filter.mp hx
  obtain ⟨hone, -, -⟩ := getElem?_of_attnum t.attnum_eq hmem
  refine ⟨x.attnum - 1, ?_, ?_, ?_⟩
  · have hlen : (loadParentColumns t.attrs).names.length = (liveAttrs t.attrs).length :=
      List.length_map _
    unfold varPosition
    rw [hlen, if_neg (by omega)]
    congr 1
    omega
  · show ((liveAttrs t.attrs).map fun a => a.dataType.typeOid).getD (x.attnum - 1) (.other 0) = _
    rw [List.getD_eq_getElem?_getD, List.getElem?_map, hget]
    rfl
  · intro row
    show (liveAttrs t.attrs)[x.attnum - 1]?.bind _ = _
    rw [hget]
    rfl

theorem IsColumn.typed (hcol : IsColumn t attno ty) (row : Row t) {v : ElemValue}
    (hv : row.cell attno = some v) : v.HasType ty := by
  obtain ⟨x, hx, rfl, rfl⟩ := hcol
  exact row.typed x hx v hv

end columns

/-! ## One node -/

section nodes

variable {t : Table} (o : Outside t)

/-- The node yields a qual, and the qual selects the rows the node is true for. -/
def Faithful (n : QualNode) : Prop :=
  ∃ q, extractNode (loadParentColumns t.attrs) n = some q ∧
    ∀ row : Row t, q.selects (row.column q.colIdx) = true ↔ n.eval o row = some true

/-- The qual on a boolean column is true where the column is `b`. -/
theorem extractBool_selects {attno : ℤ} (hcol : IsColumn t attno .bool)
    (hhole : NoHole t attno) (b : Bool) :
    ∃ q, extractBool (loadParentColumns t.attrs) attno (if b then 1 else 0) = some q ∧
      ∀ row : Row t, q.selects (row.column q.colIdx) = true ↔
        ((row.cell attno).bind fun v => v.asDatum.map fun d => decide (d ≠ 0)) = some b := by
  obtain ⟨ci, hpos, htype, hcell⟩ := hcol.position hhole
  refine ⟨{ PlanQual.ofColumn ci .bool with constDatum := if b then 1 else 0 }, ?_, ?_⟩
  · simp [extractBool, hpos, htype]
  · intro row
    show PlanQual.selects _ (row.column ci) = true ↔ _
    rw [hcell row]
    cases hv : row.cell attno with
    | none => simp [PlanQual.selects]
    | some v =>
        have htyped := hcol.typed row hv
        cases v with
        | text s => cases htyped
        | datum d =>
            cases b <;>
              simp [PlanQual.selects, PlanQual.accepts, PlanQual.ofColumn, ElemValue.asDatum,
                BatchCompareOp.comparison, applyBatchFilter, boolHolds]

theorem faithful_var {attno : ℤ} (hcol : IsColumn t attno .bool) (hhole : NoHole t attno) :
    Faithful o (.var attno .bool) := by
  obtain ⟨q, hq, hsel⟩ := extractBool_selects hcol hhole true
  refine ⟨q, hq, ?_⟩
  intro row
  rw [hsel row, QualNode.eval]

theorem faithful_not {attno : ℤ} (hcol : IsColumn t attno .bool) (hhole : NoHole t attno) :
    Faithful o (.boolExpr .not [.var attno .bool]) := by
  obtain ⟨q, hq, hsel⟩ := extractBool_selects hcol hhole false
  refine ⟨q, hq, ?_⟩
  intro row
  rw [hsel row, QualNode.eval, evalNodes, evalNodes, QualNode.eval]
  show _ ↔ Option.map not _ = some true
  rw [Option.map_eq_some_iff]
  simp

/-- Elements that are all there and all of one kind. -/
theorem mapM_elems {α : Type*} (mk : α → ElemValue) (proj : ElemValue → Option α)
    (hproj : ∀ a, proj (mk a) = some a) (vals : List α) :
    (vals.map fun a => some (mk a)).mapM (fun e => e.bind proj) = some vals := by
  induction vals with
  | nil => rfl
  | cons a vals ih =>
      rw [List.map_cons, List.mapM_cons, ih]
      simp [hproj]

theorem exists_map_of_forall {α : Type*} {mk : α → ElemValue} {p : α → Prop}
    {elems : List (Option ElemValue)} (h : ∀ e ∈ elems, ∃ a, e = some (mk a) ∧ p a) :
    ∃ vals : List α, elems = (vals.map fun a => some (mk a)) ∧ ∀ a ∈ vals, p a := by
  induction elems with
  | nil => exact ⟨[], rfl, by simp⟩
  | cons e elems ih =>
      obtain ⟨⟨a, rfl, ha⟩, htail⟩ := List.forall_mem_cons.mp h
      obtain ⟨vals, rfl, hvals⟩ := ih htail
      exact ⟨a :: vals, rfl, List.forall_mem_cons.mpr ⟨ha, hvals⟩⟩

theorem anyTrue_eq_true {results : List (Option Bool)} :
    anyTrue results = some true ↔ some true ∈ results := by
  unfold anyTrue
  split
  · simp_all
  · split <;> simp_all

theorem unwrapRelabel_typeOid (arg : Operand) : arg.unwrapRelabel.typeOid = arg.typeOid := by
  cases arg <;> rfl

theorem unwrapRelabel_value (arg : Operand) (row : Row t) :
    arg.unwrapRelabel.value o row = arg.value o row := by
  cases arg <;> rfl

theorem sqlOperator_datum {op : OpName} {cmp : Comparison} (hop : op.comparison = some cmp)
    {lt rt : TypeOid} (hkeys : sameKeys lt rt = true) (a b : Datum) :
    sqlOperator o op lt rt (.datum a) (.datum b) =
      some (decide (cmp.Holds (sqlKey lt a) (sqlKey rt b))) := by
  simp only [sqlOperator, hop, hkeys, if_true]

/-- An array that is read right selects the values equal to one of its elements. -/
theorem anyTrue_selects {lt ety : TypeOid} {α : Type*} {mk : α → ElemValue} {vals : List α}
    {P : α → Prop} (l : ElemValue)
    (hop : ∀ c ∈ vals, sqlOperator o .eq lt ety l (mk c) = some true ↔ P c) :
    sqlArrayOp o true .eq lt ety (some l) (vals.map fun a => some (mk a)) = some true ↔
      ∃ c ∈ vals, P c := by
  unfold sqlArrayOp
  rw [if_pos rfl, anyTrue_eq_true, List.map_map, List.mem_map]
  constructor
  · rintro ⟨c, hc, heq⟩
    exact ⟨c, hc, (hop c hc).mp heq⟩
  · rintro ⟨c, hc, hp⟩
    exact ⟨c, hc, (hop c hc).mpr hp⟩

theorem sqlArrayOp_none (op : OpName) (lt ety : TypeOid) (elems : List (Option ElemValue)) :
    sqlArrayOp o true op lt ety none elems ≠ some true := by
  unfold sqlArrayOp
  rw [if_pos rfl, ne_eq, anyTrue_eq_true, List.mem_map]
  rintro ⟨e, -, heq⟩
  cases heq

/-- A qual with a list on a column that holds no value selects nothing, and else what
its list says. -/
theorem faithful_of_inList {arg0 : Operand} {attno : ℤ} {ty ety : TypeOid} {ndim : ℕ}
    {elems : List (Option ElemValue)} (harg : arg0.unwrapRelabel = .var attno ty)
    (hcol : IsColumn t attno ty) (hhole : NoHole t attno) {q : ℕ → PlanQual}
    (hci : ∀ ci, (q ci).colIdx = ci)
    (hextract : ∀ ci, varPosition (loadParentColumns t.attrs) attno = some ci →
      (loadParentColumns t.attrs).typeAt ci = ty →
      extractAny (loadParentColumns t.attrs) true
        [arg0, .const ⟨ety, some (.array ndim elems)⟩] = some (q ci))
    (haccepts : ∀ ci v, v.HasType ty → ((q ci).accepts v = true ↔
      sqlArrayOp o true .eq ty ety (some v) elems = some true)) :
    Faithful o (.scalarArrayOp true .eq [arg0, .const ⟨ety, some (.array ndim elems)⟩]) := by
  obtain ⟨ci, hpos, htype, hcell⟩ := hcol.position hhole
  refine ⟨q ci, hextract ci hpos htype, ?_⟩
  intro row
  have hvalue : arg0.value o row = row.cell attno := by
    rw [← unwrapRelabel_value, harg]
    rfl
  have htypeOid : arg0.typeOid = ty := by
    rw [← unwrapRelabel_typeOid, harg]
    rfl
  rw [QualNode.eval, hvalue, htypeOid, hci, hcell row]
  cases hv : row.cell attno with
  | none => exact iff_of_false Bool.false_ne_true (sqlArrayOp_none o .eq ty ety elems)
  | some v => exact haccepts ci v (hcol.typed row hv)

theorem faithful_any {arg0 : Operand} {attno : ℤ} {ty ety : TypeOid}
    {elems : List (Option ElemValue)} (harg : arg0.unwrapRelabel = .var attno ty)
    (hcol : IsColumn t attno ty) (hhole : NoHole t attno) (hne : elems ≠ [])
    (hty : (isNumericIn ty || isTextType ty) = true)
    (helems : ∀ e ∈ elems, ∃ v, e = some v ∧ ReadableElem ty ety v) :
    Faithful o (.scalarArrayOp true .eq [arg0, .const ⟨ety, some (.array 1 elems)⟩]) := by
  have hguard : ¬(1 ≠ 1 ∨ elems = []) := by simpa using hne
  cases hnum : isNumericIn ty with
  | true =>
      have htext : isTextType ty = false := not_isTextType_of_isNumericIn hnum
      have hdatum : ∀ e ∈ elems, ∃ c, e = some (ElemValue.datum c) ∧ ReadsAs ty ety c := by
        intro e he
        obtain ⟨v, rfl, hv⟩ := helems e he
        cases v with
        | datum c => exact ⟨c, rfl, hv⟩
        | text s => exact absurd (isTextType_of_isVarText hv.1) (by simp [htext])
      obtain ⟨vals, rfl, hvals⟩ := exists_map_of_forall hdatum
      apply faithful_of_inList o harg hcol hhole
        (q := fun ci => { PlanQual.ofColumn ci ty with op := .inList, inListI64 := some vals })
        (fun _ => rfl)
      · intro ci hpos htype
        simp only [extractAny, harg, hpos, htype, Option.bind_eq_bind, Option.bind_some,
          if_neg hguard, hnum, if_true]
        rw [mapM_elems ElemValue.datum ElemValue.asDatum (fun _ => rfl)]
        rfl
      · intro ci v hv
        cases v with
        | text s => exact absurd (show isTextType ty = true from hv) (by simp [htext])
        | datum d =>
            show applyBatchFilterInList vals ty d = true ↔ _
            rw [applyBatchFilterInList_iff hnum, anyTrue_selects o (.datum d)
              (P := fun c => sqlKey ty d = sqlKey ty c)]
            intro c hc
            obtain ⟨hkeys, hread⟩ := hvals c hc
            have heq := sqlOperator_datum o (show OpName.eq.comparison = some .eq from rfl) hkeys d c
            rw [heq, hread, Option.some.injEq, decide_eq_true_iff]
            rfl
  | false =>
      rw [hnum, Bool.false_or] at hty
      have htext : ∀ e ∈ elems, ∃ s, e = some (ElemValue.text s) ∧
          (isVarText ty = true ∧ isVarText ety = true) := by
        intro e he
        obtain ⟨v, rfl, hv⟩ := helems e he
        cases v with
        | text s => exact ⟨s, rfl, hv⟩
        | datum c => exact absurd (not_isTextType_of_sameKeys hv.1) (by simp [hty])
      obtain ⟨vals, rfl, hvals⟩ := exists_map_of_forall htext
      apply faithful_of_inList o harg hcol hhole
        (q := fun ci => { PlanQual.ofColumn ci ty with op := .inList, inListText := some vals })
        (fun _ => rfl)
      · intro ci hpos htype
        simp only [extractAny, harg, hpos, htype, Option.bind_eq_bind, Option.bind_some,
          if_neg hguard, hnum, hty, if_true, Bool.false_eq_true, if_false]
        rw [mapM_elems ElemValue.text ElemValue.asText (fun _ => rfl)]
        rfl
      · intro ci v hv
        cases v with
        | datum d => exact absurd (show isTextType ty = false from hv) (by simp [hty])
        | text s =>
            show decide (s ∈ vals) = true ↔ _
            rw [decide_eq_true_iff, anyTrue_selects o (.text s) (P := fun c => s = c)]
            · simp
            · intro c hc
              obtain ⟨hvar, hevar⟩ := hvals c hc
              simp [sqlOperator, hvar, hevar]

theorem columnAndConst_cases {raw0 raw1 : Operand} {attno : ℤ} {ty : TypeOid} {c : ConstNode}
    {varOnLeft : Bool} (h : columnAndConst raw0 raw1 = some (attno, ty, c, varOnLeft)) :
    (varOnLeft = true ∧ raw0.unwrapRelabel = .var attno ty ∧ raw1.unwrapRelabel = .const c) ∨
      (varOnLeft = false ∧ raw0.unwrapRelabel = .const c ∧ raw1.unwrapRelabel = .var attno ty) := by
  unfold columnAndConst at h
  split at h
  · cases h
    exact Or.inl ⟨rfl, by assumption, by assumption⟩
  · cases h
    exact Or.inr ⟨rfl, by assumption, by assumption⟩
  · cases h

def sqlColumnFirst (op : OpName) (ty cty : TypeOid) (varOnLeft : Bool) (v c : ElemValue) :
    Option Bool :=
  if varOnLeft then sqlOperator o op ty cty v c else sqlOperator o op cty ty c v

/-- A comparison follows its column and its constant through both readings. -/
theorem faithful_of_accepts {op : OpName} {raw0 raw1 : Operand} {attno : ℤ} {ty : TypeOid}
    {c : ConstNode} {varOnLeft : Bool} {value : ConstValue} (cv : ElemValue)
    {cmp : BatchCompareOp} (hargs : columnAndConst raw0 raw1 = some (attno, ty, c, varOnLeft))
    (hcol : IsColumn t attno ty) (hhole : NoHole t attno) (hvalue : c.value = some value)
    (helem : value.elem = some cv) (hop : recognizedOp op = some cmp) {q : ℕ → PlanQual}
    (hci : ∀ ci, (q ci).colIdx = ci)
    (hqual : ∀ ci, comparisonQual ci ty cmp value varOnLeft = some (q ci))
    (haccepts : ∀ ci v, v.HasType ty → ((q ci).accepts v = true ↔
      sqlColumnFirst o op ty c.typeOid varOnLeft v cv = some true)) :
    Faithful o (.opExpr op [raw0, raw1]) := by
  obtain ⟨ci, hpos, htype, hcell⟩ := hcol.position hhole
  have hconst : ∀ (arg : Operand) (row : Row t), arg.unwrapRelabel = .const c →
      arg.value o row = some cv ∧ arg.typeOid = c.typeOid := by
    intro arg row harg
    rw [← unwrapRelabel_value, ← unwrapRelabel_typeOid, harg]
    exact ⟨by rw [Operand.value, hvalue, Option.bind_some, helem], rfl⟩
  have hvar : ∀ (arg : Operand) (row : Row t), arg.unwrapRelabel = .var attno ty →
      arg.value o row = row.cell attno ∧ arg.typeOid = ty := by
    intro arg row harg
    rw [← unwrapRelabel_value, ← unwrapRelabel_typeOid, harg]
    exact ⟨rfl, rfl⟩
  have hfound : varAndConst raw0.unwrapRelabel raw1.unwrapRelabel = some (attno, c, varOnLeft) := by
    rcases columnAndConst_cases hargs with ⟨rfl, h0, h1⟩ | ⟨rfl, h0, h1⟩ <;> rw [h0, h1] <;> rfl
  refine ⟨q ci, ?_, ?_⟩
  · simp only [extractNode, extractComparison, hop, hfound, hvalue, hpos, htype,
      Option.bind_eq_bind, Option.bind_some, hqual]
  · intro row
    rw [hci, hcell row, QualNode.eval]
    cases hv : row.cell attno with
    | none =>
        refine iff_of_false Bool.false_ne_true ?_
        rcases columnAndConst_cases hargs with ⟨-, h0, h1⟩ | ⟨-, h0, h1⟩
        · rw [(hvar raw0 row h0).1, hv]
          simp [sqlApply]
        · rw [(hvar raw1 row h1).1, hv]
          simp [sqlApply]
    | some v =>
        have h := haccepts ci v (hcol.typed row hv)
        rcases columnAndConst_cases hargs with ⟨rfl, h0, h1⟩ | ⟨rfl, h0, h1⟩
        · rw [(hvar raw0 row h0).1, (hvar raw0 row h0).2, (hconst raw1 row h1).1,
            (hconst raw1 row h1).2, hv]
          exact h
        · rw [(hvar raw1 row h1).1, (hvar raw1 row h1).2, (hconst raw0 row h0).1,
            (hconst raw0 row h0).2, hv]
          exact h

theorem gateOperands_eq {raw0 raw1 : Operand} {attno : ℤ} {ty : TypeOid} {c : ConstNode}
    {varOnLeft : Bool} (h : columnAndConst raw0 raw1 = some (attno, ty, c, varOnLeft)) :
    gateOperands raw0.unwrapRelabel raw1.unwrapRelabel = some (ty, varOnLeft, c) := by
  rcases columnAndConst_cases h with ⟨rfl, h0, h1⟩ | ⟨rfl, h0, h1⟩ <;> rw [h0, h1] <;> rfl

/-- The operator an extracted comparison stands for. -/
def sqlName : BatchCompareOp → OpName
  | .eq => .eq
  | .ne => .ne
  | .lt => .lt
  | .le => .le
  | .gt => .gt
  | .ge => .ge
  | .like => .like
  | .notLike => .notLike
  | .inList => .other 0

theorem eq_sqlName {op : OpName} {cmp : BatchCompareOp} (h : recognizedOp op = some cmp) :
    op = sqlName cmp := by
  cases op <;> cases h <;> rfl

theorem faithful_like {op : OpName} {raw0 raw1 : Operand} {attno : ℤ} {ty : TypeOid}
    {c : ConstNode} {pattern : Text} {cmp : BatchCompareOp}
    (hargs : columnAndConst raw0 raw1 = some (attno, ty, c, true))
    (hcol : IsColumn t attno ty) (hhole : NoHole t attno) (hvalue : c.value = some (.text pattern))
    (hop : recognizedOp op = some cmp) (hlike : cmp = .like ∨ cmp = .notLike)
    (hty : isTextType ty = true) (hcty : isVarText c.typeOid = true)
    (hpattern : PlainPattern pattern) : Faithful o (.opExpr op [raw0, raw1]) := by
  apply faithful_of_accepts o (.text pattern) hargs hcol hhole hvalue rfl hop
    (q := fun ci => { PlanQual.ofColumn ci ty with
      op := cmp, likeStrategy := some (compileLikePattern pattern) }) (fun _ => rfl)
  · intro ci
    simp [comparisonQual, hlike, hty, ConstValue.asText, ConstValue.word, PlanQual.ofColumn]
  · intro ci v hv
    cases v with
    | datum d => exact absurd (show isTextType ty = false from hv) (by simp [hty])
    | text s =>
        have hmatch := likeStrategyMatches_iff hpattern.1 s
        rw [eq_sqlName hop]
        rcases hlike with rfl | rfl
        · simp [PlanQual.accepts, sqlColumnFirst, sqlName, sqlOperator, hty, hcty, hmatch]
        · simp [PlanQual.accepts, sqlColumnFirst, sqlName, sqlOperator, hty, hcty, ← hmatch]

theorem faithful_text_eq {op : OpName} {raw0 raw1 : Operand} {attno : ℤ} {ty : TypeOid}
    {c : ConstNode} {value : Text} {cmp : BatchCompareOp}
    (hargs : columnAndConst raw0 raw1 = some (attno, ty, c, true))
    (hcol : IsColumn t attno ty) (hhole : NoHole t attno) (hvalue : c.value = some (.text value))
    (hop : recognizedOp op = some cmp) (heq : cmp = .eq ∨ cmp = .ne)
    (hty : ty = .text ∨ ty = .varchar) (hcty : isVarText c.typeOid = true) :
    Faithful o (.opExpr op [raw0, raw1]) := by
  have hvar : isVarText ty = true := by
    rcases hty with rfl | rfl <;> rfl
  have hlike : ¬(cmp = .like ∨ cmp = .notLike) := by
    rcases heq with rfl | rfl <;> decide
  apply faithful_of_accepts o (.text value) hargs hcol hhole hvalue rfl hop
    (q := fun ci => { PlanQual.ofColumn ci ty with op := cmp, textConst := some value })
    (fun _ => rfl)
  · intro ci
    simp [comparisonQual, hlike, hty, heq, ConstValue.asText, ConstValue.word, PlanQual.ofColumn]
  · intro ci v hv
    cases v with
    | datum d =>
        exact absurd (show isTextType ty = false from hv) (by simp [isTextType_of_isVarText hvar])
    | text s =>
        rw [eq_sqlName hop]
        rcases heq with rfl | rfl <;>
          simp [PlanQual.accepts, sqlColumnFirst, sqlName, sqlOperator, hvar, hcty]

theorem flipCompareOp_comparison {cmp : BatchCompareOp} {k : Comparison}
    (h : cmp.comparison = some k) : (flipCompareOp cmp).comparison = some k.flip := by
  cases cmp <;> cases h <;> rfl

theorem sqlName_comparison {cmp : BatchCompareOp} {k : Comparison}
    (h : cmp.comparison = some k) : (sqlName cmp).comparison = some k := by
  cases cmp <;> cases h <;> rfl

theorem faithful_datum {op : OpName} {raw0 raw1 : Operand} {attno : ℤ} {ty : TypeOid}
    {c : ConstNode} {d : Datum} {cmp : BatchCompareOp} {varOnLeft : Bool} {k : Comparison}
    (hargs : columnAndConst raw0 raw1 = some (attno, ty, c, varOnLeft))
    (hcol : IsColumn t attno ty) (hhole : NoHole t attno) (hvalue : c.value = some (.datum d))
    (hop : recognizedOp op = some cmp) (hk : cmp.comparison = some k)
    (hty : isBatchComparableType ty = true) (hread : ReadsAs ty c.typeOid d)
    (hexact : ExactComparison ty (if varOnLeft then k else k.flip) d) :
    Faithful o (.opExpr op [raw0, raw1]) := by
  have htext := not_isTextType_of_isBatchComparableType hty
  have hlike : ¬(cmp = .like ∨ cmp = .notLike) := by
    rintro (rfl | rfl) <;> cases hk
  have hvar : ¬((ty = .text ∨ ty = .varchar) ∧ (cmp = .eq ∨ cmp = .ne)) := by
    rintro ⟨rfl | rfl, -⟩ <;> cases hty
  have hcomp : (if varOnLeft then cmp else flipCompareOp cmp).comparison =
      some (if varOnLeft then k else k.flip) := by
    cases varOnLeft
    · exact flipCompareOp_comparison hk
    · exact hk
  apply faithful_of_accepts o (.datum d) hargs hcol hhole hvalue rfl hop
    (q := fun ci => { PlanQual.ofColumn ci ty with
      op := if varOnLeft then cmp else flipCompareOp cmp, constDatum := d }) (fun _ => rfl)
  · intro ci
    rw [comparisonQual, if_neg hlike, if_neg hvar, if_pos hty]
    rfl
  · intro ci v hv
    cases v with
    | text s => exact absurd (show isTextType ty = true from hv) (by simp [htext])
    | datum a =>
        have haccepts : PlanQual.accepts { PlanQual.ofColumn ci ty with
            op := if varOnLeft then cmp else flipCompareOp cmp, constDatum := d } (.datum a) =
            applyBatchFilter ty (if varOnLeft then k else k.flip) d a := by
          simp only [PlanQual.accepts, hcomp]
          rfl
        rw [haccepts, applyBatchFilter_iff hty hexact, eq_sqlName hop, hread.2]
        unfold sqlColumnFirst
        cases varOnLeft with
        | true =>
            rw [if_pos rfl, if_pos rfl, sqlOperator_datum o (sqlName_comparison hk) hread.1,
              Option.some.injEq, decide_eq_true_iff]
        | false =>
            rw [if_neg Bool.false_ne_true, if_neg Bool.false_ne_true,
              sqlOperator_datum o (sqlName_comparison hk) (sameKeys_comm hread.1),
              Option.some.injEq, decide_eq_true_iff, Comparison.holds_flip]

theorem isColumn_of_over {arg : Operand} {attno : ℤ} {ty : TypeOid} (hover : arg.Over t)
    (harg : arg.unwrapRelabel = .var attno ty) : IsColumn t attno ty := by
  cases arg with
  | var => cases harg; exact hover
  | const => cases harg
  | relabel arg =>
      rw [show arg = .var attno ty from harg] at hover
      exact hover
  | other => cases harg

/-- A comparison the gate accepts and the executor reads right. -/
theorem faithful_comparison {op : OpName} {raw0 raw1 : Operand}
    (hgate : gateComparison op raw0 raw1 = true) (hover : ∀ a ∈ [raw0, raw1], a.Over t)
    (hread : Readable t (.opExpr op [raw0, raw1])) : Faithful o (.opExpr op [raw0, raw1]) := by
  obtain ⟨attno, ty, c, varOnLeft, value, hargs, hhole, hvalue, hconst⟩ := hread
  have hcol : IsColumn t attno ty := by
    rcases columnAndConst_cases hargs with ⟨-, h0, -⟩ | ⟨-, -, h1⟩
    · exact isColumn_of_over (hover raw0 (by simp)) h0
    · exact isColumn_of_over (hover raw1 (by simp)) h1
  unfold gateComparison at hgate
  rw [gateOperands_eq hargs] at hgate
  cases hop : recognizedOp op with
  | none => simp [hop] at hgate
  | some cmp =>
      simp only [hop, hvalue, Option.isSome_some, Bool.true_and] at hgate
      have hconst := hconst cmp hop
      by_cases hlike : cmp = .like ∨ cmp = .notLike
      · rw [if_pos hlike, Bool.and_eq_true] at hgate
        obtain ⟨rfl, hty⟩ := hgate
        cases value with
        | datum d => exact absurd (not_isTextType_of_sameKeys hconst.1.1) (by simp [hty])
        | text pattern =>
            exact faithful_like o hargs hcol hhole hvalue hop hlike hty hconst.2.1
              (hconst.2.2 hlike)
        | array => exact hconst.elim
      · rw [if_neg hlike] at hgate
        by_cases heq : (ty = .text ∨ ty = .varchar) ∧ (cmp = .eq ∨ cmp = .ne)
        · rw [if_pos heq] at hgate
          obtain rfl := hgate
          cases value with
          | datum d =>
              have hty := not_isTextType_of_sameKeys hconst.1.1
              rcases heq.1 with rfl | rfl <;> cases hty
          | text s => exact faithful_text_eq o hargs hcol hhole hvalue hop heq.2 heq.1 hconst.2.1
          | array => exact hconst.elim
        · rw [if_neg heq] at hgate
          cases value with
          | text s =>
              exact absurd (not_isTextType_of_isBatchComparableType hgate) (by simp [hconst.1])
          | array => exact hconst.elim
          | datum d =>
              obtain ⟨k, hk⟩ : ∃ k, cmp.comparison = some k := by
                cases op <;> cases hop <;> first | exact ⟨_, rfl⟩ | simp at hlike
              apply faithful_datum o hargs hcol hhole hvalue hop hk hgate hconst.1
              apply hconst.2
              cases varOnLeft
              · exact flipCompareOp_comparison hk
              · exact hk

/-- A node the gate accepts and the executor reads right. -/
theorem faithful_of_readable {n : QualNode} (hgate : gateNode n = true) (hover : n.Over t)
    (hread : Readable t n) : Faithful o n := by
  unfold gateNode at hgate
  split at hgate
  · exact faithful_comparison o hgate hover hread
  · obtain rfl := of_decide_eq_true hgate
    exact faithful_var o hover hread
  · obtain rfl := of_decide_eq_true hgate
    exact faithful_not o hover hread
  · exact hread.elim
  · rename_i useOr op args
    unfold gateAny at hgate
    split at hgate
    · rename_i arg0 c
      unfold Readable at hread
      split at hread
      · rename_i heq
        cases heq
      · rename_i heq
        cases heq
      · rename_i arg0' ety ndim elems heq
        cases heq
        obtain ⟨attno, ty, harg, hhole, rfl, rfl, hne, helems⟩ := hread
        have hcol : IsColumn t attno ty := isColumn_of_over (hover arg0 (by simp)) harg
        rw [harg] at hgate
        exact faithful_any o harg hcol hhole hne hgate helems
      · rename_i heq
        cases heq
      · exact hread.elim
    · cases hgate
  · cases hgate

end nodes

/-- `(ts timestamptz, amount integer, name text)`. -/
def salesTable : Table where
  attrs := [⟨1, "ts".toList, .timestamptz, -1, false, none⟩,
    ⟨2, "amount".toList, .integer, -1, false, none⟩, ⟨3, "name".toList, .text, -1, false, none⟩]
  attnum_eq := rfl
  names_nodup := by decide

def salesOutside : Outside salesTable where
  operand := fun _ => none
  node := fun _ => none
  operator := fun _ _ _ _ _ => none

/-- `amount = ANY('\x7b7,9\x7d') AND 5 <= amount AND name LIKE 'ab%'`. -/
def salesNodes : List QualNode :=
  [.scalarArrayOp true .eq
      [.var 2 .int4, .const ⟨.int4, some (.array 1 [some (.datum 7), some (.datum 9)])⟩],
    .opExpr .le [.const ⟨.int8, some (.datum 5)⟩, .var 2 .int4],
    .opExpr .like [.var 3 .text, .const ⟨.text, some (.text "ab%".toList)⟩]]

theorem isColumn_amount : IsColumn salesTable 2 .int4 :=
  ⟨⟨2, "amount".toList, .integer, -1, false, none⟩, by decide, rfl, rfl⟩

theorem isColumn_name : IsColumn salesTable 3 .text :=
  ⟨⟨3, "name".toList, .text, -1, false, none⟩, by decide, rfl, rfl⟩

theorem noHole_sales (attno : ℤ) : NoHole salesTable attno := by
  have hall : ∀ b ∈ salesTable.attrs, b.dropped = false := by decide
  exact fun b hb _ => hall b hb

/-- `amount <> ANY('\x7b1,2\x7d')`. -/
def differsNodes : List QualNode :=
  [.scalarArrayOp true .ne
    [.var 2 .int4, .const ⟨.int4, some (.array 1 [some (.datum 1), some (.datum 2)])⟩]]

def threeRow : Row salesTable where
  cell := fun attno => if attno = 2 then some (.datum 3) else none
  typed := by
    intro a ha v hv
    have hall : ∀ a ∈ liveAttrs salesTable.attrs, a.dataType.typeOid = .int4 ∨ a.attnum ≠ 2 := by
      decide
    rcases hall a ha with hty | hne
    · rw [hty]
      split at hv
      · cases hv
        rfl
      · cases hv
    · rw [if_neg (by exact_mod_cast hne)] at hv
      cases hv

end DeltaX.Scan
