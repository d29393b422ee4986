import DeltaX.Agg.Pushdown
import DeltaX.Agg.TopN
import DeltaX.Scan.QualNodes
import DeltaX.Support.ListLookup
import Mathlib.Data.Rat.Floor
import Mathlib.Tactic.Linarith
/-!
# HAVING

The HAVING clause as the planner turns it into filters on the computed
aggregates, and the two places that apply the filters to the merged groups: on
the finalized datum, and on the accumulator as it lies in the slot.
-/

namespace DeltaX.Agg

open Column Support.KeySpan Support.IeeeOrder

/-! ## Values -/

/-- A value an aggregate or a constant may have, by type.  Dates are days and
instants microseconds since 2000. -/
inductive HavingValue
  | integer (v : ℤ)
  | date (v : ℤ)
  | timestamp (v : ℤ)
  | timestamptz (v : ℤ)
  | numeric (v : ℚ)
  | float8 (bits : Pattern binary64)
deriving DecidableEq, Repr

inductive HavingClass
  | integer | date | timestamp | timestamptz | numeric | float8
deriving DecidableEq, Repr

def HavingValue.cls : HavingValue → HavingClass
  | .integer _ => .integer
  | .date _ => .date
  | .timestamp _ => .timestamp
  | .timestamptz _ => .timestamptz
  | .numeric _ => .numeric
  | .float8 _ => .float8

/-- A datum read as a 64-bit integer: the value itself, the bits of a float, or the
address of a value passed by reference. -/
def HavingValue.word (address : BitVec 64) : HavingValue → ℤ
  | .integer v | .date v | .timestamp v | .timestamptz v => v
  | .numeric _ => address.toInt
  | .float8 bits => bits.toInt

/-- The instant of a date or time on the session's clock. -/
def HavingValue.instant (zone : ℤ) : HavingValue → Option ℤ
  | .date d => some (d * 86400000000)
  | .timestamp t => some t
  | .timestamptz t => some (t + zone)
  | _ => none

/-- A comparison of SQL; dates and times of different types are compared as
instants, and NaN is the greatest float. -/
def HavingValue.compares (zone : ℤ) (cmp : Comparison) (a b : HavingValue) : Bool :=
  match a, b with
  | .integer v, .integer c => decide (cmp.Holds v c)
  | .numeric v, .numeric c => decide (cmp.Holds v c)
  | .float8 v, .float8 c => decide (cmp.Holds (rank binary64 v) (rank binary64 c))
  | a, b =>
      match a.instant zone, b.instant zone with
      | some v, some c => decide (cmp.Holds v c)
      | _, _ => false

/-! ## The clause -/

/-- A constant that is not NULL, with the address it has if its type is passed by
reference. -/
structure HavingConst where
  value : HavingValue
  address : BitVec 64
deriving DecidableEq, Repr

def HavingConst.word (c : HavingConst) : ℤ := c.value.word c.address

/-- An argument of a HAVING operator; an aggregate is given by its node. -/
inductive HavingArg
  | aggref (node : ℕ)
  | const (c : Option HavingConst)
  | other
deriving DecidableEq, Repr

inductive HavingNode
  | opExpr (op : Scan.OpName) (args : List HavingArg)
  | other
deriving DecidableEq, Repr

/-- `havingQual`: a list, a boolean expression, or one node. -/
inductive HavingQual
  | list (nodes : List HavingNode)
  | boolExpr (op : Scan.BoolOp) (args : List HavingNode)
  | node (n : HavingNode)
deriving DecidableEq, Repr

def HavingQual.nodes : HavingQual → Option (List HavingNode)
  | .list nodes => some nodes
  | .boolExpr .and args => some args
  | .boolExpr _ _ => none
  | .node n => some [n]

def havingOp : Scan.OpName → Option Comparison
  | .gt => some .gt
  | .lt => some .lt
  | .ge => some .ge
  | .le => some .le
  | .eq => some .eq
  | .ne => some .ne
  | _ => none

/-- `Aggref op Const` or `Const op Aggref`, with the aggregate on the left. -/
def HavingNode.parse : HavingNode → Option (ℕ × Comparison × HavingConst)
  | .opExpr op [.aggref h, .const (some c)] => (havingOp op).map fun cmp => (h, cmp, c)
  | .opExpr op [.const (some c), .aggref h] => (havingOp op).map fun cmp => (h, cmp.flip, c)
  | _ => none

/-- An aggregate of the target list: its node and its spec. -/
structure ComputedAgg where
  node : ℕ
  spec : CompactSpec
deriving DecidableEq

/-- What HAVING is planned and evaluated with.  SUM of a real column, which is
real again, is not among the result types here. -/
structure HavingQuery where
  types : ℕ → TypeOid
  heap : ℕ → Aggref
  aggs : List ComputedAgg
  classified : ∀ a ∈ aggs, classify types (heap a.node) = some a.spec.toAggExecSpec
  notReal : ∀ a ∈ aggs, a.spec.aggType = .sum → a.spec.colTypeOid ≠ .float4
  /-- A float sum divided by the number of its values. -/
  divide : Pattern binary64 → ℕ → Pattern binary64

/-- The same function with the same star flag, and without star the same plain
column. -/
def sameCall (a h : Aggref) : Bool :=
  decide (a.name = h.name) && a.star == h.star &&
    (a.star || match a.args, h.args with
      | [.var col], [.var col'] => col == col'
      | _, _ => false)

structure HavingFilter (n : ℕ) where
  aggIdx : Fin n
  op : Comparison
  constVal : ℤ
deriving DecidableEq, Repr

namespace HavingQuery

/-- The aggregate a HAVING aggregate is matched to: the node itself, else the first
with the same call. -/
def matchAggref (q : HavingQuery) (h : ℕ) : Option (Fin q.aggs.length) :=
  match q.aggs.findFinIdx? fun a => a.node == h with
  | some i => some i
  | none => q.aggs.findFinIdx? fun a => sameCall (q.heap a.node) (q.heap h)

/-- The filter of one node; `none` where the planner gives up. -/
def havingFilter (q : HavingQuery) (node : HavingNode) : Option (HavingFilter q.aggs.length) := do
  let (h, cmp, c) ← node.parse
  let idx ← q.matchAggref h
  some ⟨idx, cmp, c.word⟩

def havingFilters (q : HavingQuery) (qual : HavingQual) :
    Option (List (HavingFilter q.aggs.length)) := do
  let nodes ← qual.nodes
  nodes.mapM q.havingFilter

end HavingQuery

/-! ## Slots of a merged group -/

structure IntSum where
  sum : ℤ
  count : ℕ
  empty : count = 0 → sum = 0

def negZero : Pattern binary64 := BitVec.intMin 64

/-- A float sum starts at zero, and adding never makes it the negative zero. -/
structure FloatSum where
  bits : Pattern binary64
  count : ℕ
  empty : count = 0 → bits = 0
  ne_negZero : bits ≠ negZero

/-- What the slot of a merged group holds. -/
abbrev Slot : CompactAccKind → Type
  | .count | .countDistinctInt => ℕ
  | .sumInt | .sumIntNarrow => IntSum
  | .sumFloat => FloatSum
  | .minInt | .maxInt => Option ℤ

def wordValue (t : TypeOid) (v : ℤ) : HavingValue :=
  match t with
  | .date => .date v
  | .timestamp => .timestamp v
  | .timestamptz => .timestamptz v
  | _ => .integer v

/-- The value `compact_finalize` gives to a slot. -/
def slotValue (divide : Pattern binary64 → ℕ → Pattern binary64) (spec : AggExecSpec) :
    (k : CompactAccKind) → Slot k → Option HavingValue
  | .count, (n : ℕ) => some (.integer n)
  | .countDistinctInt, (n : ℕ) => some (.integer n)
  | .sumInt, (s : IntSum) =>
      if s.count = 0 then none
      else if spec.aggType = .avg then some (.numeric (s.sum / s.count))
      else some (.numeric s.sum)
  | .sumIntNarrow, (s : IntSum) =>
      if s.count = 0 then none
      else if spec.aggType = .avg then some (.numeric (s.sum / s.count))
      else some (.integer s.sum)
  | .sumFloat, (s : FloatSum) =>
      if s.count = 0 then none
      else if spec.aggType = .avg then some (.float8 (divide s.bits s.count))
      else some (.float8 s.bits)
  | .minInt, (v : Option ℤ) => v.map (wordValue spec.colTypeOid)
  | .maxInt, (v : Option ℤ) => v.map (wordValue spec.colTypeOid)

def havingReadVal : (k : CompactAccKind) → Slot k → ℤ
  | .count, (n : ℕ) => n
  | .countDistinctInt, (n : ℕ) => n
  | .sumInt, (s : IntSum) => lowWord s.sum
  | .sumIntNarrow, (s : IntSum) => s.sum
  | .sumFloat, (s : FloatSum) => s.bits.toInt
  | .minInt, (v : Option ℤ) => v.getD 0
  | .maxInt, (v : Option ℤ) => v.getD 0

/-- A merged group, with the values SQL gives to all aggregates over its rows; the
slots hold those of the computed ones. -/
structure HavingGroup (q : HavingQuery) where
  key : BitVec 128
  slots : (slot : Fin q.aggs.length) → Slot (q.aggs.get slot).spec.kind
  value : Aggref → Option HavingValue
  value_eq : ∀ slot, value (q.heap (q.aggs.get slot).node) =
    slotValue q.divide (q.aggs.get slot).spec.toAggExecSpec _ (slots slot)

/-! ## Which groups survive -/

/-- A finalized datum against a constant: `is_null` drops the group. -/
def finalTrue (address : BitVec 64) (cmp : Comparison) (c : ℤ) (v : Option HavingValue) : Bool :=
  match v with
  | none => false
  | some v => decide (cmp.Holds (v.word address) c)

namespace HavingQuery

variable (q : HavingQuery)

/-- One filter on the finalized datum.  `alloc` says where the values passed by
reference are allocated. -/
def finalPasses (alloc : BitVec 128 → ℕ → BitVec 64) (g : HavingGroup q)
    (f : HavingFilter q.aggs.length) : Bool :=
  finalTrue (alloc g.key f.aggIdx) f.op f.constVal
    (slotValue q.divide (q.aggs.get f.aggIdx).spec.toAggExecSpec _ (g.slots f.aggIdx))

def compactFullMergeHaving (alloc : BitVec 128 → ℕ → BitVec 64)
    (filters : List (HavingFilter q.aggs.length)) (groups : List (HavingGroup q)) :
    List (HavingGroup q) :=
  groups.filter fun g => filters.all fun f => q.finalPasses alloc g f

def slotPasses (g : HavingGroup q) (f : HavingFilter q.aggs.length) : Bool :=
  decide (f.op.Holds (havingReadVal _ (g.slots f.aggIdx)) f.constVal)

/-- The groups `compact_partitioned_topn` selects from. -/
def compactPartitionedHaving (filters : List (HavingFilter q.aggs.length))
    (groups : List (HavingGroup q)) : List (HavingGroup q) :=
  groups.filter fun g => filters.all fun f => q.slotPasses g f

variable {q}

/-- SQL evaluates a comparison to true; a NULL aggregate makes it NULL. -/
def sqlTrue (zone : ℤ) (g : HavingGroup q) : HavingNode → Bool
  | .opExpr op [.aggref h, .const (some c)] =>
      match havingOp op, g.value (q.heap h) with
      | some cmp, some v => v.compares zone cmp c.value
      | _, _ => false
  | .opExpr op [.const (some c), .aggref h] =>
      match havingOp op, g.value (q.heap h) with
      | some cmp, some v => c.value.compares zone cmp v
      | _, _ => false
  | _ => false

variable (q)

def sqlHaving (zone : ℤ) (nodes : List HavingNode) (groups : List (HavingGroup q)) :
    List (HavingGroup q) :=
  groups.filter fun g => nodes.all fun node => sqlTrue zone g node

/-- No allocated value lies where a constant of the clause does. -/
def Apart (alloc : BitVec 128 → ℕ → BitVec 64) (nodes : List HavingNode) : Prop :=
  ∀ node ∈ nodes, ∀ p, node.parse = some p → ∀ key slot, alloc key slot ≠ p.2.2.address

/-- The filters are on the aggregates of the clause, and both paths keep the groups
SQL keeps. -/
structure EvaluatedAsSql (nodes : List HavingNode) (filters : List (HavingFilter q.aggs.length)) :
    Prop where
  attached : ∀ node ∈ nodes, ∀ p idx, node.parse = some p → q.matchAggref p.1 = some idx →
    q.heap (q.aggs.get idx).node = q.heap p.1
  fullMerge : ∀ zone alloc, Apart alloc nodes → ∀ groups,
    q.compactFullMergeHaving alloc filters groups = q.sqlHaving zone nodes groups
  partitioned : ∀ zone groups,
    q.compactPartitionedHaving filters groups = q.sqlHaving zone nodes groups

end HavingQuery

/-! ## Comparisons the words answer -/

/-- The type of an aggregate's value. -/
def AggExecSpec.resultClass (spec : AggExecSpec) : HavingClass :=
  match spec.aggType, spec.colTypeOid with
  | .count, _ | .countStar, _ | .countDistinct, _ => .integer
  | .sum, .int8 => .numeric
  | .sum, .float4 | .sum, .float8 | .avg, .float4 | .avg, .float8 => .float8
  | .avg, _ => .numeric
  | .min, .date | .max, .date => .date
  | .min, .timestamp | .max, .timestamp => .timestamp
  | .min, .timestamptz | .max, .timestamptz => .timestamptz
  | _, _ => .integer

def AggExecSpec.NeverNull (spec : AggExecSpec) : Prop :=
  spec.aggType = .count ∨ spec.aggType = .countStar ∨ spec.aggType = .countDistinct

/-- Comparisons of a float sum with a constant that come out the same on the bits:
equality with a number other than zero, and inequality with zero. -/
def FloatComparable (cmp : Comparison) (c : Pattern binary64) : Prop :=
  cmp = .eq ∧ isNan binary64 c = false ∧ magnitude c ≠ 0 ∨ cmp = .ne ∧ c = 0

/-- Comparing the words of this aggregate and a constant of its type is comparing their
values, and a NULL aggregate does not pass. -/
def AggExecSpec.Comparable (spec : AggExecSpec) (cmp : Comparison) (c : HavingConst) : Prop :=
  match spec.resultClass, c.value with
  | .integer, .integer v | .date, .date v | .timestamp, .timestamp v
  | .timestamptz, .timestamptz v => spec.NeverNull ∨ ¬ cmp.Holds 0 v
  | .float8, .float8 bits => spec.aggType = .sum ∧ FloatComparable cmp bits
  | _, _ => False

def HavingQuery.FirstSame (q : HavingQuery) (h : ℕ) : Prop :=
  (∃ a ∈ q.aggs, a.node = h) ∨
    ∀ a, (q.aggs.find? fun a => sameCall (q.heap a.node) (q.heap h)) = some a →
      q.heap a.node = q.heap h

def HavingQuery.Readable (q : HavingQuery) (node : HavingNode) : Prop :=
  ∀ p, node.parse = some p → q.FirstSame p.1 ∧
    ∀ a ∈ q.aggs, q.heap a.node = q.heap p.1 → a.spec.Comparable p.2.1 p.2.2

section words

variable {divide : Pattern binary64 → ℕ → Pattern binary64} {spec : AggExecSpec}
  {k : CompactAccKind} {cmp : Comparison} {c : HavingConst}

theorem compares_flip (zone : ℤ) (cmp : Comparison) (a b : HavingValue) :
    a.compares zone cmp.flip b = b.compares zone cmp a := by
  cases a <;> cases b <;> simp [HavingValue.compares, HavingValue.instant, Comparison.holds_flip]

/-- What SQL makes of a value that may be NULL. -/
def comparesTrue (zone : ℤ) (cmp : Comparison) (v : Option HavingValue) (c : HavingValue) : Bool :=
  match v with
  | none => false
  | some v => v.compares zone cmp c

theorem sqlTrue_eq {q : HavingQuery} (zone : ℤ) (g : HavingGroup q) {node : HavingNode}
    {p : ℕ × Comparison × HavingConst} (hparse : node.parse = some p) :
    HavingQuery.sqlTrue zone g node =
      comparesTrue zone p.2.1 (g.value (q.heap p.1)) p.2.2.value := by
  unfold HavingNode.parse at hparse
  split at hparse
  · obtain ⟨cmp, hop, rfl⟩ := Option.map_eq_some_iff.mp hparse
    simp only [HavingQuery.sqlTrue, hop, comparesTrue]
    cases g.value (q.heap _) <;> rfl
  · obtain ⟨cmp, hop, rfl⟩ := Option.map_eq_some_iff.mp hparse
    simp only [HavingQuery.sqlTrue, hop, comparesTrue]
    cases g.value (q.heap _) with
    | none => rfl
    | some v => exact (compares_flip zone cmp v _).symm
  · cases hparse

theorem holds_days (cmp : Comparison) (v c : ℤ) :
    cmp.Holds (v * 86400000000) (c * 86400000000) ↔ cmp.Holds v c := by
  cases cmp <;> simp only [Comparison.Holds] <;> omega

theorem holds_shifted (cmp : Comparison) (v c zone : ℤ) :
    cmp.Holds (v + zone) (c + zone) ↔ cmp.Holds v c := by
  cases cmp <;> simp only [Comparison.Holds] <;> omega

theorem compares_wordValue (zone : ℤ) (cmp : Comparison) (t : TypeOid) (v : ℤ)
    {c : HavingValue} (address : BitVec 64) (hcls : c.cls = (wordValue t v).cls) :
    (wordValue t v).compares zone cmp c = decide (cmp.Holds v (c.word address)) := by
  unfold wordValue at hcls ⊢
  split at hcls <;> cases c <;> cases hcls
  · exact decide_eq_decide.mpr (holds_days cmp v _)
  · rfl
  · exact decide_eq_decide.mpr (holds_shifted cmp v _ zone)
  · rfl

/-- The slot of a count, an integer sum or an extreme holds the value in its first
word, or zero while there is none. -/
theorem exists_word (divide : Pattern binary64 → ℕ → Pattern binary64)
    (hkind : compactAccKind spec = some k)
    (hnumeric : spec.resultClass ≠ .numeric) (hfloat : spec.resultClass ≠ .float8) (s : Slot k) :
    ∃ (t : TypeOid) (w : Option ℤ), slotValue divide spec k s = w.map (wordValue t) ∧
      (∀ v, (wordValue t v).cls = spec.resultClass) ∧ havingReadVal k s = w.getD 0 ∧
      (spec.NeverNull → w ≠ none) := by
  have hfits := fits_of_compactAccKind hkind
  cases k with
  | count =>
      refine ⟨.int8, some (s : ℕ), rfl, ?_, rfl, fun _ => Option.some_ne_none _⟩
      intro v
      rcases hfits with h | h <;> simp [wordValue, HavingValue.cls, AggExecSpec.resultClass, h]
  | countDistinctInt =>
      refine ⟨.int8, some (s : ℕ), rfl, ?_, rfl, fun _ => Option.some_ne_none _⟩
      intro v
      have h : spec.aggType = .countDistinct := hfits
      simp [wordValue, HavingValue.cls, AggExecSpec.resultClass, h]
  | sumInt =>
      obtain ⟨h | h, ht⟩ := hfits <;> simp [AggExecSpec.resultClass, h, ht] at hnumeric
  | sumFloat =>
      obtain ⟨h | h, ht | ht⟩ := hfits <;> simp [AggExecSpec.resultClass, h, ht] at hfloat
  | sumIntNarrow =>
      obtain ⟨h | h, ht⟩ := hfits
      · refine ⟨.int8, if (s : IntSum).count = 0 then none else some (s : IntSum).sum, ?_, ?_, ?_, ?_⟩
        · simp only [slotValue, h, reduceCtorEq, if_false]
          split <;> rfl
        · intro v
          rcases ht with ht | ht <;>
            simp [wordValue, HavingValue.cls, AggExecSpec.resultClass, h, ht]
        · split
          · rename_i hcount
            exact (s : IntSum).empty hcount
          · rfl
        · rintro (hn | hn | hn) <;> rw [h] at hn <;> cases hn
      · rcases ht with ht | ht <;> simp [AggExecSpec.resultClass, h, ht] at hnumeric
  | minInt =>
      have h : spec.aggType = .min := hfits
      refine ⟨spec.colTypeOid, (s : Option ℤ), rfl, ?_, rfl, ?_⟩
      · intro v
        cases ht : spec.colTypeOid <;>
          simp [wordValue, HavingValue.cls, AggExecSpec.resultClass, h, ht]
      · rintro (hn | hn | hn) <;> rw [h] at hn <;> cases hn
  | maxInt =>
      have h : spec.aggType = .max := hfits
      refine ⟨spec.colTypeOid, (s : Option ℤ), rfl, ?_, rfl, ?_⟩
      · intro v
        cases ht : spec.colTypeOid <;>
          simp [wordValue, HavingValue.cls, AggExecSpec.resultClass, h, ht]
      · rintro (hn | hn | hn) <;> rw [h] at hn <;> cases hn

theorem eq_zero_or_negZero {v : Pattern binary64} (h : magnitude v = 0) : v = 0 ∨ v = negZero := by
  have hnat := toNat_eq_magnitude v
  rw [h, add_zero] at hnat
  cases hsign : v.msb with
  | false =>
      left
      apply BitVec.eq_of_toNat_eq
      rw [hnat, hsign]
      rfl
  | true =>
      right
      apply BitVec.eq_of_toNat_eq
      rw [hnat, hsign]
      rfl

/-- The bits tell two patterns apart as their values do, the negative zero left out. -/
theorem holds_bits_iff {v c : Pattern binary64} (hv : v ≠ negZero)
    (hc : FloatComparable cmp c) :
    cmp.Holds v.toInt c.toInt ↔ cmp.Holds (rank binary64 v) (rank binary64 c) := by
  have hbits : v.toInt = c.toInt ↔ v = c := BitVec.toInt_inj
  rcases hc with ⟨rfl, hnan, hmag⟩ | ⟨rfl, hzero⟩
  · show v.toInt = c.toInt ↔ rank binary64 v = rank binary64 c
    rw [hbits]
    constructor
    · exact fun h => by rw [h]
    · intro h
      rcases eq_or_zero_of_rank_eq hnan h with heq | ⟨-, hc0⟩
      · exact heq
      · exact absurd hc0 hmag
  · show v.toInt ≠ c.toInt ↔ rank binary64 v ≠ rank binary64 c
    rw [Ne, hbits]
    apply not_congr
    constructor
    · exact fun h => by rw [h]
    · intro h
      rw [hzero] at h ⊢
      rcases eq_or_zero_of_rank_eq (by decide) h with heq | ⟨hv0, -⟩
      · exact heq
      · exact (eq_zero_or_negZero hv0).resolve_right hv

theorem not_holds_zero_bits {c : Pattern binary64} (hc : FloatComparable cmp c) :
    ¬ cmp.Holds 0 c.toInt := by
  rcases hc with ⟨rfl, -, hmag⟩ | ⟨rfl, rfl⟩
  · intro h
    have hzero : c = 0 := BitVec.toInt_inj.mp (Eq.symm (h : (0 : ℤ) = c.toInt))
    rw [hzero] at hmag
    exact hmag rfl
  · intro h
    exact h rfl

/-- What `Comparable` comes to, for floats and for the types whose word is the value. -/
theorem comparable_cases (hc : spec.Comparable cmp c) :
    (spec.resultClass = .float8 ∧ spec.aggType = .sum ∧
      ∃ bits, c.value = .float8 bits ∧ FloatComparable cmp bits) ∨
    (spec.resultClass ≠ .numeric ∧ spec.resultClass ≠ .float8 ∧ c.value.cls = spec.resultClass ∧
      (spec.NeverNull ∨ ¬ cmp.Holds 0 c.word)) := by
  unfold AggExecSpec.Comparable at hc
  unfold HavingConst.word
  split at hc
  case h_5 bits hclass hvalue => exact Or.inl ⟨hclass, hc.1, bits, hvalue, hc.2⟩
  case h_6 => exact hc.elim
  all_goals
    rename_i hclass hvalue
    right
    rw [hclass, hvalue]
    exact ⟨by decide, by decide, rfl, hc⟩

theorem float_slot_answers (zone : ℤ) (address : BitVec 64)
    (hkind : compactAccKind spec = some k) (hclass : spec.resultClass = .float8)
    (hsum : spec.aggType = .sum) {bits : Pattern binary64} (hvalue : c.value = .float8 bits)
    (hbits : FloatComparable cmp bits) (s : Slot k) :
    finalTrue address cmp c.word (slotValue divide spec k s) =
        comparesTrue zone cmp (slotValue divide spec k s) c.value ∧
      decide (cmp.Holds (havingReadVal k s) c.word) =
        comparesTrue zone cmp (slotValue divide spec k s) c.value := by
  have hfits := fits_of_compactAccKind hkind
  have hword : c.word = bits.toInt := by
    rw [HavingConst.word, hvalue]
    rfl
  cases k with
  | sumFloat =>
      let sum : FloatSum := s
      have hread : havingReadVal .sumFloat s = sum.bits.toInt := rfl
      have hslot : slotValue divide spec .sumFloat s =
          if sum.count = 0 then none else some (.float8 sum.bits) := by
        simp only [slotValue, hsum, reduceCtorEq, if_false]
        rfl
      rw [hslot, hread, hword, hvalue]
      by_cases hcount : sum.count = 0
      · have hzero : sum.bits = 0 := sum.empty hcount
        have hnot := not_holds_zero_bits hbits
        rw [if_pos hcount, hzero]
        exact ⟨rfl, decide_eq_false hnot⟩
      · have hiff := holds_bits_iff sum.ne_negZero hbits
        rw [if_neg hcount]
        exact ⟨decide_eq_decide.mpr hiff, decide_eq_decide.mpr hiff⟩
  | sumInt =>
      have ht : spec.colTypeOid = .int8 := hfits.2
      simp [AggExecSpec.resultClass, hsum, ht] at hclass
  | sumIntNarrow =>
      rcases hfits.2 with ht | ht <;> simp [AggExecSpec.resultClass, hsum, ht] at hclass
  | count => rcases hfits with h | h <;> rw [hsum] at h <;> cases h
  | countDistinctInt => exact absurd (hsum.symm.trans hfits) (by decide)
  | minInt => exact absurd (hsum.symm.trans hfits) (by decide)
  | maxInt => exact absurd (hsum.symm.trans hfits) (by decide)

/-- On a comparable aggregate both paths answer what SQL does. -/
theorem slot_answers (zone : ℤ) (address : BitVec 64) (hkind : compactAccKind spec = some k)
    (hc : spec.Comparable cmp c) (s : Slot k) :
    finalTrue address cmp c.word (slotValue divide spec k s) =
        comparesTrue zone cmp (slotValue divide spec k s) c.value ∧
      decide (cmp.Holds (havingReadVal k s) c.word) =
        comparesTrue zone cmp (slotValue divide spec k s) c.value := by
  rcases comparable_cases hc with ⟨hclass, hsum, bits, hvalue, hbits⟩ |
    ⟨hnumeric, hfloat, hcls, hnull⟩
  · exact float_slot_answers zone address hkind hclass hsum hvalue hbits s
  · obtain ⟨t, w, hslot, htype, hread, hnever⟩ :=
      exists_word divide hkind hnumeric hfloat s
    rw [hslot, hread]
    cases w with
    | none =>
        refine ⟨rfl, ?_⟩
        apply decide_eq_false
        rcases hnull with hnull | hnull
        · exact absurd rfl (hnever hnull)
        · exact hnull
    | some v =>
        have hcompare : (wordValue t v).compares zone cmp c.value = decide (cmp.Holds v c.word) :=
          compares_wordValue zone cmp t v c.address (hcls.trans (htype v).symm)
        have hword : (wordValue t v).word address = v := by
          unfold wordValue
          split <;> rfl
        refine ⟨?_, hcompare.symm⟩
        show decide (cmp.Holds ((wordValue t v).word address) c.word) =
          (wordValue t v).compares zone cmp c.value
        rw [hword, hcompare]

end words

/-! ## Clauses -/

namespace HavingQuery

variable {q : HavingQuery} {node : HavingNode} {f : HavingFilter q.aggs.length}

theorem find?_of_findFinIdx? {α : Type*} {p : α → Bool} {xs : List α} {i : Fin xs.length}
    (h : xs.findFinIdx? p = some i) : xs.find? p = some (xs.get i) := by
  obtain ⟨hp, hbefore⟩ := List.findFinIdx?_eq_some_iff.mp h
  apply List.find?_eq_some_iff_getElem.mpr
  exact ⟨hp, i, i.isLt, rfl, fun j hj => by simpa using hbefore ⟨j, hj.trans i.isLt⟩ hj⟩

theorem exists_findFinIdx? {α : Type*} {p : α → Bool} {xs : List α} {x : α}
    (h : xs.find? p = some x) : ∃ i, xs.findFinIdx? p = some i ∧ xs.get i = x := by
  cases hidx : xs.findFinIdx? p with
  | none =>
      have hnone := List.findFinIdx?_eq_none_iff.mp hidx
      exact absurd (List.find?_some h) (by simpa using hnone x (List.mem_of_find?_eq_some h))
  | some i =>
      refine ⟨i, rfl, ?_⟩
      rw [find?_of_findFinIdx? hidx, Option.some.injEq] at h
      exact h

/-- The matched aggregate is the one of the clause exactly when the first with its call
is. -/
theorem firstSame_iff {h : ℕ} :
    q.FirstSame h ↔ ∀ idx, q.matchAggref h = some idx →
      q.heap (q.aggs.get idx).node = q.heap h := by
  unfold FirstSame matchAggref
  cases hnode : q.aggs.findFinIdx? fun a => a.node == h with
  | some i =>
      have hi : (q.aggs.get i).node = h := by
        simpa using (List.findFinIdx?_eq_some_iff.mp hnode).1
      constructor
      · rintro - idx hidx
        rw [← Option.some.inj hidx, hi]
      · exact fun _ => Or.inl ⟨q.aggs.get i, List.get_mem _ _, hi⟩
  | none =>
      have hnone : ¬ ∃ a ∈ q.aggs, a.node = h := by
        rintro ⟨a, ha, hah⟩
        have := List.findFinIdx?_eq_none_iff.mp hnode a ha
        simp [hah] at this
      rw [or_iff_right hnone]
      constructor
      · intro hfirst idx hidx
        exact hfirst _ (find?_of_findFinIdx? hidx)
      · intro hmatch a ha
        obtain ⟨i, hi, rfl⟩ := exists_findFinIdx? ha
        exact hmatch i hi

theorem havingFilter_cases (h : q.havingFilter node = some f) :
    ∃ p idx, node.parse = some p ∧ q.matchAggref p.1 = some idx ∧
      f = ⟨idx, p.2.1, p.2.2.word⟩ := by
  unfold havingFilter at h
  obtain ⟨p, hparse, h⟩ := Option.bind_eq_some_iff.mp h
  obtain ⟨idx, hmatch, h⟩ := Option.bind_eq_some_iff.mp h
  exact ⟨p, idx, hparse, hmatch, (Option.some.inj h).symm⟩

theorem filter_answers (hreadable : q.Readable node) (hfilter : q.havingFilter node = some f)
    (zone : ℤ) (alloc : BitVec 128 → ℕ → BitVec 64) (g : HavingGroup q) :
    q.finalPasses alloc g f = sqlTrue zone g node ∧ q.slotPasses g f = sqlTrue zone g node := by
  obtain ⟨p, idx, hparse, hmatch, rfl⟩ := havingFilter_cases hfilter
  obtain ⟨hfirst, hcomparable⟩ := hreadable p hparse
  have hsame := firstSame_iff.mp hfirst idx hmatch
  have hspec := hcomparable _ (List.get_mem q.aggs idx) hsame
  rw [sqlTrue_eq zone g hparse, ← hsame, g.value_eq idx]
  exact slot_answers zone _ (q.aggs.get idx).spec.kind_eq hspec (g.slots idx)

theorem all_eq_all_of_forall₂ {α β : Type*} {R : α → β → Prop} {xs : List α} {ys : List β}
    {p : α → Bool} {p' : β → Bool} (hall : List.Forall₂ R xs ys)
    (h : ∀ x ∈ xs, ∀ y, R x y → p' y = p x) : ys.all p' = xs.all p := by
  induction hall with
  | nil => rfl
  | cons hxy _ ih =>
      rename_i x y xs ys _
      have hrest := ih fun x' hx' => h x' (List.mem_cons_of_mem x hx')
      rw [List.all_cons, List.all_cons, h x List.mem_cons_self y hxy, hrest]

theorem evaluatedAsSql_of_readable {nodes : List HavingNode}
    {filters : List (HavingFilter q.aggs.length)}
    (haccepted : nodes.mapM q.havingFilter = some filters)
    (hreadable : ∀ node ∈ nodes, q.Readable node) : q.EvaluatedAsSql nodes filters := by
  have hforall := Support.ListLookup.forall₂_of_mapM haccepted
  constructor
  · intro node hnode p idx hparse hmatch
    exact firstSame_iff.mp (hreadable node hnode p hparse).1 idx hmatch
  · intro zone alloc _ groups
    apply List.filter_congr
    intro g _
    apply all_eq_all_of_forall₂ hforall
    exact fun node hnode f hf => (filter_answers (hreadable node hnode) hf zone alloc g).1
  · intro zone groups
    apply List.filter_congr
    intro g _
    apply all_eq_all_of_forall₂ hforall
    exact fun node hnode f hf =>
      (filter_answers (hreadable node hnode) hf zone (fun _ _ => 0) g).2

/-! ### One comparison -/

/-- A group whose slots of one kind are all alike. -/
def uniformGroup (q : HavingQuery) (slotOf : (k : CompactAccKind) → Slot k) : HavingGroup q where
  key := 0
  slots := fun _ => slotOf _
  value := fun a => (classify q.types a).bind fun spec =>
    (compactAccKind spec).bind fun k => slotValue q.divide spec k (slotOf k)
  value_eq := by
    intro slot
    rw [q.classified _ (List.get_mem q.aggs slot), Option.bind_some,
      (q.aggs.get slot).spec.kind_eq, Option.bind_some]

def nullSlot : (k : CompactAccKind) → Slot k
  | .count | .countDistinctInt => (0 : ℕ)
  | .sumInt | .sumIntNarrow => (⟨0, 0, fun _ => rfl⟩ : IntSum)
  | .sumFloat => (⟨0, 0, fun _ => rfl, by decide⟩ : FloatSum)
  | .minInt | .maxInt => (none : Option ℤ)

def sumSlot (sum : ℤ) (count : ℕ) (hcount : count ≠ 0) : (k : CompactAccKind) → Slot k
  | .sumInt | .sumIntNarrow => (⟨sum, count, fun h => absurd h hcount⟩ : IntSum)
  | .count => nullSlot .count
  | .countDistinctInt => nullSlot .countDistinctInt
  | .sumFloat => nullSlot .sumFloat
  | .minInt => nullSlot .minInt
  | .maxInt => nullSlot .maxInt

theorem nullSlot_reads_zero (divide : Pattern binary64 → ℕ → Pattern binary64) {spec : AggExecSpec}
    {k : CompactAccKind} (hkind : compactAccKind spec = some k) (hnull : ¬ spec.NeverNull) :
    slotValue divide spec k (nullSlot k) = none ∧ havingReadVal k (nullSlot k) = 0 := by
  have hfits := fits_of_compactAccKind hkind
  cases k with
  | count =>
      rcases hfits with h | h
      · exact absurd (Or.inr (Or.inl h)) hnull
      · exact absurd (Or.inl h) hnull
  | countDistinctInt => exact absurd (Or.inr (Or.inr hfits)) hnull
  | _ => exact ⟨rfl, by decide⟩

theorem sumSlot_value (divide : Pattern binary64 → ℕ → Pattern binary64) {spec : AggExecSpec}
    {k : CompactAccKind} (hkind : compactAccKind spec = some k)
    (hclass : spec.resultClass = .numeric) (sum : ℤ) (count : ℕ) (hcount : count ≠ 0) :
    slotValue divide spec k (sumSlot sum count hcount k) =
      some (.numeric (if spec.aggType = .avg then (sum : ℚ) / count else sum)) := by
  have hfits := fits_of_compactAccKind hkind
  cases k with
  | sumInt =>
      simp only [slotValue, sumSlot, hcount, if_false]
      split <;> rfl
  | sumIntNarrow =>
      obtain ⟨h | h, ht⟩ := hfits
      · rcases ht with ht | ht <;> simp [AggExecSpec.resultClass, h, ht] at hclass
      · simp only [slotValue, sumSlot, hcount, if_false, h, if_true]
  | count => rcases hfits with h | h <;> simp [AggExecSpec.resultClass, h] at hclass
  | countDistinctInt =>
      have h : spec.aggType = .countDistinct := hfits
      simp [AggExecSpec.resultClass, h] at hclass
  | sumFloat => obtain ⟨h | h, ht | ht⟩ := hfits <;> simp [AggExecSpec.resultClass, h, ht] at hclass
  | minInt =>
      have h : spec.aggType = .min := hfits
      cases ht : spec.colTypeOid <;> simp [AggExecSpec.resultClass, h, ht] at hclass
  | maxInt =>
      have h : spec.aggType = .max := hfits
      cases ht : spec.colTypeOid <;> simp [AggExecSpec.resultClass, h, ht] at hclass

variable {p : ℕ × Comparison × HavingConst} {idx : Fin q.aggs.length}

/-- Both paths on one group of one comparison. -/
theorem answers_of_evaluated (hparse : node.parse = some p) (hmatch : q.matchAggref p.1 = some idx)
    (h : q.EvaluatedAsSql [node] [⟨idx, p.2.1, p.2.2.word⟩]) {spec : CompactSpec}
    (hspec : (q.aggs.get idx).spec = spec) (slotOf : (k : CompactAccKind) → Slot k) :
    (∀ address, address ≠ p.2.2.address →
      finalTrue address p.2.1 p.2.2.word
          (slotValue q.divide spec.toAggExecSpec spec.kind (slotOf spec.kind)) =
        comparesTrue 0 p.2.1
          (slotValue q.divide spec.toAggExecSpec spec.kind (slotOf spec.kind)) p.2.2.value) ∧
      decide (p.2.1.Holds (havingReadVal spec.kind (slotOf spec.kind)) p.2.2.word) =
        comparesTrue 0 p.2.1
          (slotValue q.divide spec.toAggExecSpec spec.kind (slotOf spec.kind)) p.2.2.value := by
  subst hspec
  let g := uniformGroup q slotOf
  have hsame := h.attached node List.mem_cons_self p idx hparse hmatch
  have hsql := sqlTrue_eq 0 g hparse
  rw [← hsame, g.value_eq idx] at hsql
  have hone : ∀ b b' : HavingGroup q → Bool, [g].filter b = [g].filter b' → b g = b' g := by
    intro b b' hfilter
    cases hb : b g <;> cases hb' : b' g <;> simp_all
  constructor
  · intro address hne
    have happart : Apart (fun _ _ => address) [node] := by
      intro node' hnode' p' hparse' _ _
      rw [List.mem_singleton.mp hnode', hparse] at hparse'
      rw [← Option.some.inj hparse']
      exact hne
    have hfull := hone _ _ (h.fullMerge 0 (fun _ _ => address) happart [g])
    simp only [List.all_cons, List.all_nil, Bool.and_true] at hfull
    exact hfull.trans hsql
  · have hpart := hone _ _ (h.partitioned 0 [g])
    simp only [List.all_cons, List.all_nil, Bool.and_true] at hpart
    exact hpart.trans hsql

theorem exists_address_ne (address : BitVec 64) : ∃ other : BitVec 64, other ≠ address := by
  exact ⟨address + 1, by bv_omega⟩

theorem exists_integer_not_holds {cmp : Comparison} (c : ℚ) (b : Bool) (heq : cmp ≠ .eq)
    (hne : cmp ≠ .ne) : ∃ v : ℤ, decide (cmp.Holds (v : ℚ) c) = b := by
  have hbelow : ((⌊c⌋ - 1 : ℤ) : ℚ) < c := by
    have := Int.floor_le c
    push_cast
    linarith
  have habove : c < ((⌊c⌋ + 1 : ℤ) : ℚ) := by
    have := Int.lt_floor_add_one c
    push_cast
    exact this
  have hnotAbove := not_lt_of_gt hbelow
  have hnotBelow := not_lt_of_gt habove
  cases cmp with
  | eq => exact absurd rfl heq
  | ne => exact absurd rfl hne
  | lt =>
      cases b with
      | true => exact ⟨_, decide_eq_true hbelow⟩
      | false => exact ⟨_, decide_eq_false hnotBelow⟩
  | le =>
      cases b with
      | true => exact ⟨_, decide_eq_true hbelow.le⟩
      | false => exact ⟨_, decide_eq_false (not_le_of_gt habove)⟩
  | gt =>
      cases b with
      | true => exact ⟨_, decide_eq_true habove⟩
      | false => exact ⟨_, decide_eq_false hnotAbove⟩
  | ge =>
      cases b with
      | true => exact ⟨_, decide_eq_true habove.le⟩
      | false => exact ⟨_, decide_eq_false (not_le_of_gt hbelow)⟩

theorem eq_iff_eq_of_holds {α β : Type*} [LinearOrder α] [LinearOrder β] {cmp : Comparison}
    {x y : α} {x' y' : β} (hcmp : cmp = .eq ∨ cmp = .ne) (h : cmp.Holds x y ↔ cmp.Holds x' y') :
    x = y ↔ x' = y' := by
  rcases hcmp with rfl | rfl
  · exact h
  · exact not_iff_not.mp h

theorem sumInt_of_numeric {spec : AggExecSpec} {k : CompactAccKind}
    (hkind : compactAccKind spec = some k) (hclass : spec.resultClass = .numeric)
    (havg : spec.aggType ≠ .avg) : k = .sumInt := by
  unfold compactAccKind at hkind
  unfold AggExecSpec.resultClass at hclass
  cases haggType : spec.aggType <;> cases ht : spec.colTypeOid <;>
    simp_all

/-- Nothing about a numeric result is answered by the address it lies at. -/
theorem not_evaluated_numeric (hparse : node.parse = some p)
    (hmatch : q.matchAggref p.1 = some idx)
    (hclass : (q.aggs.get idx).spec.resultClass = .numeric) (hcls : p.2.2.value.cls = .numeric) :
    ¬ q.EvaluatedAsSql [node] [⟨idx, p.2.1, p.2.2.word⟩] := by
  intro h
  generalize hspec : (q.aggs.get idx).spec = spec at hclass
  obtain ⟨c, hvalue⟩ : ∃ c, p.2.2.value = .numeric c := by
    cases hv : p.2.2.value <;> rw [hv] at hcls <;> cases hcls
    exact ⟨_, rfl⟩
  obtain ⟨other, hother⟩ := exists_address_ne p.2.2.address
  have hword : p.2.2.word = p.2.2.address.toInt := by
    rw [HavingConst.word, hvalue]
    rfl
  have hslot := fun sum count hcount =>
    sumSlot_value q.divide spec.kind_eq hclass sum count hcount
  have hanswers := fun slotOf => answers_of_evaluated hparse hmatch h hspec slotOf
  -- The two paths on a sum of so many values.
  have hfinal : ∀ (sum : ℤ) (count : ℕ), count ≠ 0 → (
      p.2.1.Holds other.toInt p.2.2.address.toInt ↔
        p.2.1.Holds (if spec.aggType = .avg then (sum : ℚ) / count else sum) c) := by
    intro sum count hcount
    have heq := (hanswers (sumSlot sum count hcount)).1 other hother
    rw [hslot, hvalue, hword] at heq
    exact decide_eq_decide.mp heq
  have hread : ∀ (sum : ℤ) (count : ℕ) (hcount : count ≠ 0),
      p.2.1.Holds (havingReadVal spec.kind (sumSlot sum count hcount spec.kind))
          p.2.2.address.toInt ↔
        p.2.1.Holds (if spec.aggType = .avg then (sum : ℚ) / count else sum) c := by
    intro sum count hcount
    have heq := (hanswers (sumSlot sum count hcount)).2
    rw [hslot, hvalue, hword] at heq
    exact decide_eq_decide.mp heq
  by_cases hcmp : p.2.1 = .eq ∨ p.2.1 = .ne
  · have hne : other.toInt ≠ p.2.2.address.toInt := fun heq => hother (BitVec.toInt_inj.mp heq)
    by_cases havg : spec.aggType = .avg
    · -- Every number is an average.
      have hiff := eq_iff_eq_of_holds hcmp (hfinal c.num c.den c.den_ne_zero)
      rw [if_pos havg] at hiff
      exact hne (hiff.mpr (Rat.num_div_den c))
    · simp only [havg, if_false] at hfinal hread
      by_cases hint : ((c.num : ℤ) : ℚ) = c
      · exact hne ((eq_iff_eq_of_holds hcmp (hfinal c.num 1 one_ne_zero)).mpr hint)
      · -- A sum that is the address, as a number.
        have hiff := eq_iff_eq_of_holds hcmp (hread p.2.2.address.toInt 1 one_ne_zero)
        have hsum : ((p.2.2.address.toInt : ℤ) : ℚ) = c := by
          apply hiff.mp
          rw [sumInt_of_numeric spec.kind_eq hclass havg]
          exact BitVec.toInt_bmod_cancel p.2.2.address
        apply hint
        rw [← hsum, Rat.num_intCast]
  · rw [not_or] at hcmp
    obtain ⟨v, hv⟩ := exists_integer_not_holds c
      (!decide (p.2.1.Holds other.toInt p.2.2.address.toInt)) hcmp.1 hcmp.2
    have hiff := hfinal v 1 one_ne_zero
    simp only [Nat.cast_one, div_one, ite_self] at hiff
    have heq : decide (p.2.1.Holds other.toInt p.2.2.address.toInt) =
        decide (p.2.1.Holds (v : ℚ) c) := decide_eq_decide.mpr hiff
    rw [hv] at heq
    exact Bool.not_ne_self _ heq.symm

def OwnType (q : HavingQuery) (node : HavingNode) : Prop :=
  ∀ p, node.parse = some p → ∀ a ∈ q.aggs, q.heap a.node = q.heap p.1 →
    p.2.2.value.cls = a.spec.resultClass ∧ a.spec.resultClass ≠ .float8

theorem comparable_of_word {spec : AggExecSpec} {cmp : Comparison} {c : HavingConst}
    (hcls : c.value.cls = spec.resultClass) (hnumeric : spec.resultClass ≠ .numeric)
    (hfloat : spec.resultClass ≠ .float8) (hnull : spec.NeverNull ∨ ¬ cmp.Holds 0 c.word) :
    spec.Comparable cmp c := by
  unfold AggExecSpec.Comparable
  unfold HavingConst.word at hnull
  cases hvalue : c.value <;> rw [hvalue] at hcls hnull <;> rw [← hcls] at hnumeric hfloat ⊢
  case numeric => exact absurd rfl hnumeric
  case float8 => exact absurd rfl hfloat
  all_goals exact hnull

theorem readable_of_evaluated (howntype : q.OwnType node) (hfilter : q.havingFilter node = some f)
    (h : q.EvaluatedAsSql [node] [f]) : q.Readable node := by
  obtain ⟨p, idx, hparse, hmatch, rfl⟩ := havingFilter_cases hfilter
  intro p' hparse'
  rw [hparse, Option.some.injEq] at hparse'
  subst hparse'
  refine ⟨firstSame_iff.mpr fun i hi => h.attached node List.mem_cons_self p i hparse hi, ?_⟩
  intro a ha hsame
  -- Equal aggregates have equal specs, so that of the matched one will do.
  have hidx := h.attached node List.mem_cons_self p idx hparse hmatch
  have hspec : (q.aggs.get idx).spec.toAggExecSpec = a.spec.toAggExecSpec := by
    have hget := q.classified _ (List.get_mem q.aggs idx)
    rw [hidx, ← hsame, q.classified a ha] at hget
    exact (Option.some.inj hget).symm
  obtain ⟨hcls, hfloat⟩ := howntype p hparse a ha hsame
  rw [← hspec] at hcls hfloat ⊢
  have hnumeric : (q.aggs.get idx).spec.resultClass ≠ .numeric :=
    fun hclass => not_evaluated_numeric hparse hmatch hclass (hcls.trans hclass) h
  apply comparable_of_word hcls hnumeric hfloat
  by_contra hnull
  rw [not_or, not_not] at hnull
  -- The group without a value passes where the accumulator is read.
  obtain ⟨hvalue, hread⟩ := nullSlot_reads_zero q.divide (q.aggs.get idx).spec.kind_eq hnull.1
  have hpart := (answers_of_evaluated hparse hmatch h rfl nullSlot).2
  rw [hvalue, hread, decide_eq_true hnull.2] at hpart
  cases hpart

theorem compactAccKind_countStar :
    compactAccKind ⟨.countStar, -1, .other 0, .column, 0, .none⟩ = some .count := rfl

/-- `SELECT count(*) … GROUP BY …`. -/
def countHavingQuery : HavingQuery where
  types := fun _ => .int8
  heap := fun _ => ⟨.count, true, false, false, 0, []⟩
  aggs := [⟨0, ⟨⟨.countStar, -1, .other 0, .column, 0, .none⟩, .count,
    compactAccKind_countStar⟩⟩]
  classified := by simp [classify]
  notReal := by simp
  divide := fun bits _ => bits

def countNodes : List HavingNode :=
  [.opExpr .gt [.aggref 1, .const (some ⟨.integer 5, 0⟩)],
    .opExpr .ge [.const (some ⟨.integer 100, 0⟩), .aggref 2]]

def countFilters : List (HavingFilter countHavingQuery.aggs.length) :=
  [⟨⟨0, Nat.one_pos⟩, .gt, 5⟩, ⟨⟨0, Nat.one_pos⟩, .le, 100⟩]

/-- `SELECT sum(a) … GROUP BY …` with a bigint column. -/
def bigintSumQuery : HavingQuery where
  types := fun _ => .int8
  heap := fun _ => ⟨.sum, false, false, false, 0, [.var 0]⟩
  aggs := [⟨0, ⟨⟨.sum, 0, .int8, .column, 0, .none⟩, .sumInt, rfl⟩⟩]
  classified := by simp [classify, resolveArg, aggTypeOf]
  notReal := by simp
  divide := fun bits _ => bits

/-- `sum(a) > 5`, the constant at address 2. -/
def sumOverFive : HavingNode := .opExpr .gt [.aggref 1, .const (some ⟨.numeric 5, 2⟩)]

def sumFilters : List (HavingFilter bigintSumQuery.aggs.length) := [⟨⟨0, Nat.one_pos⟩, .gt, 2⟩]

end HavingQuery

end DeltaX.Agg
