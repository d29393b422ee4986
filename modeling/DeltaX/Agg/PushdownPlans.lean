import DeltaX.Agg.Represented
import DeltaX.Support.ListLookup
/-!
# Plans that keep the query's meaning

The groups of a plan against those of the query, and when all its specs and
groups are right.
-/

namespace DeltaX.Agg

open Column

/-! ## The groups -/

section groups

variable {types : ℕ → TypeOid} {items : List GroupItem} {groups : List GroupKeySpec} {n : ℕ}

/-- Groups depend on a key only through which rows share it. -/
theorem groupsBy_congr {κ κ' : Type*} [DecidableEq κ] [DecidableEq κ'] {key : ℕ → κ}
    {key' : ℕ → κ'} (h : ∀ i j, key j = key i ↔ key' j = key' i) :
    groupsBy key n = groupsBy key' n := by
  unfold groupsBy
  simp only [h]

theorem groupsBy_zero {κ : Type*} [DecidableEq κ] (key : ℕ → κ) : groupsBy key 0 = [] := rfl

theorem groupsBy_one {κ : Type*} [DecidableEq κ] (key : ℕ → κ) : groupsBy key 1 = [[0]] := by
  simp [groupsBy]

theorem setGroups_one (input : GroupInput types) (items : List GroupItem) :
    setGroups input items 1 = [[0]] := by
  unfold setGroups
  split
  · rfl
  · exact groupsBy_one _

theorem groupsBy_two {κ : Type*} [DecidableEq κ] (key : ℕ → κ) :
    groupsBy key 2 = if key 0 = key 1 then [[0, 1]] else [[0], [1]] := by
  have hrange : List.range 2 = [0, 1] := rfl
  by_cases h : key 0 = key 1
  · simp [groupsBy, hrange, h]
  · have h' : key 1 ≠ key 0 := fun heq => h heq.symm
    simp [groupsBy, hrange, h, h']

/-- The recorded keys are those of the clause. -/
theorem mem_groupSpecs (h : groupSpecs items = some groups) (spec : GroupKeySpec) :
    spec ∈ groups ↔ .key spec ∈ items := by
  obtain ⟨lists, hlists, rfl⟩ := Option.map_eq_some_iff.mp h
  have hforall := Support.ListLookup.forall₂_of_mapM hlists
  clear h hlists
  induction hforall with
  | nil => simp
  | cons hitem _ ih =>
      rename_i item keys items lists _
      rw [List.flatten_cons, List.mem_append, List.mem_cons]
      cases item with
      | const =>
          cases hitem
          simpa using ih
      | key spec' =>
          cases hitem
          simp only [List.mem_singleton, GroupItem.key.injEq]
          exact or_congr_right ih
      | unsupported => cases hitem

/-- One grouping set with the entries of the clause, each column in it grouped by value,
and a key among them. -/
structure UpperQuery.GroupsRepresented (types : ℕ → TypeOid) (q : UpperQuery) : Prop where
  oneSet : q.groupingSets = none ∨ ∃ set, q.groupingSets = some [set]
  hasKey : q.groupClause = [] ∨ ∃ spec, .key spec ∈ q.groupClause
  byValue : ∀ col, .key (.column col) ∈ q.groupClause →
    isRefOid (types col) = false ∧ isFloatType (types col) = false

variable {q : UpperQuery}

theorem exists_setGroups (hq : q.Valid)
    (hset : q.groupingSets = none ∨ ∃ set, q.groupingSets = some [set]) :
    ∃ items : List GroupItem, (∀ item, item ∈ items ↔ item ∈ q.groupClause) ∧
      ∀ (input : GroupInput types) (n : ℕ), q.sqlGroups input n = setGroups input items n := by
  rcases hset with hnone | ⟨set, hsome⟩
  · refine ⟨q.groupClause, fun _ => Iff.rfl, ?_⟩
    intro input n
    simp only [UpperQuery.sqlGroups, hnone]
  · obtain ⟨-, hbound, hall⟩ := hq [set] hsome
    refine ⟨set.filterMap (q.groupClause[·]?), ?_, ?_⟩
    · intro item
      rw [List.mem_filterMap]
      constructor
      · rintro ⟨i, -, hi⟩
        exact List.mem_of_getElem? hi
      · intro hitem
        obtain ⟨i, hi, rfl⟩ := List.mem_iff_getElem.mp hitem
        obtain ⟨set', hset', hmem⟩ := hall i hi
        rw [List.mem_singleton.mp hset'] at hmem
        exact ⟨i, hmem, List.getElem?_eq_getElem hi⟩
    · intro input n
      simp only [UpperQuery.sqlGroups, hsome, List.flatMap_cons, List.flatMap_nil, List.append_nil]

theorem execValue_eq_value {spec : GroupKeySpec} (input : GroupInput types)
    (hcolumn : ∀ col, spec = .column col →
      isRefOid (types col) = false ∧ isFloatType (types col) = false) (i : ℕ) :
    spec.execValue input i = spec.value input i := by
  cases spec with
  | expr key => rfl
  | column col =>
      simp only [GroupKeySpec.execValue, GroupKeySpec.value]
      cases hcell : (input.row i).cell col with
      | none => rfl
      | some c =>
          have htyped := (input.row i).typed col c hcell
          obtain ⟨href, hfloat⟩ := hcolumn col rfl
          cases c with
          | ref r => cases ht : types col <;> simp_all [Cell.hasType, isRefOid]
          | float4 bits => cases ht : types col <;> simp_all [Cell.hasType, isFloatType]
          | float8 bits => cases ht : types col <;> simp_all [Cell.hasType, isFloatType]
          | word v => rfl
          | text s => rfl

/-- Which rows share the values of a clause's entries. -/
theorem map_value_eq_iff {items : List GroupItem} (input : GroupInput types) (i j : ℕ) :
    ((items.map fun item => item.value input j) = items.map fun item => item.value input i) ↔
      ∀ spec, .key spec ∈ items → spec.value input j = spec.value input i := by
  rw [List.map_inj_left]
  constructor
  · exact fun h spec hspec => h (.key spec) hspec
  · intro h item hitem
    cases item with
    | const => rfl
    | unsupported => rfl
    | key spec => exact h spec hitem

/-- Values of a by-reference type, or zeros, that are equal and grouped apart. -/
theorem exists_sameValue {t : TypeOid} (ht : isRefOid t = true ∨ isFloatType t = true) :
    ∃ c c' : Cell, c.hasType t = true ∧ c'.hasType t = true ∧ c.value = c'.value ∧
      c.groupValue ≠ c'.groupValue := by
  rcases ht with href | hfloat
  · exact ⟨.ref blankRef, .ref { blankRef with address := 2 }, hasType_ref href _,
      hasType_ref href _, rfl, by decide⟩
  · obtain ⟨c, c', hc, hc', hvalue, -, hgroup⟩ := exists_zeros hfloat
    exact ⟨c, c', hc, hc', hvalue, hgroup⟩

def rowOf (types : ℕ → TypeOid) (col : ℕ) (c : Cell) (hc : c.hasType (types col) = true) :
    Row types where
  cell := fun i => if i = col then some c else none
  typed := by
    intro i c' hc'
    split at hc'
    · rename_i hi
      cases hc'
      rwa [hi]
    · cases hc'

theorem producedGroups_one (input : GroupInput types) (groups : List GroupKeySpec) :
    producedGroups input groups 1 = [[0]] := by
  unfold producedGroups
  split
  · rfl
  · exact groupsBy_one _

theorem oneSet_of_groups_eq (input : GroupInput types)
    (h : producedGroups input groups 1 = q.sqlGroups input 1) :
    q.groupingSets = none ∨ ∃ set, q.groupingSets = some [set] := by
  cases hsets : q.groupingSets with
  | none => exact Or.inl rfl
  | some sets =>
      rw [producedGroups_one] at h
      simp only [UpperQuery.sqlGroups, hsets, setGroups_one] at h
      -- One group for each set.
      have hlength : sets.length = 1 := by
        have := congrArg List.length h
        simpa using this.symm
      obtain ⟨set, hset⟩ := List.length_eq_one_iff.mp hlength
      exact Or.inr ⟨set, by rw [hset]⟩

theorem groups_eq_iff_represented (hq : q.Valid)
    (hspecs : groupSpecs q.groupClause = some groups) :
    (∀ (input : GroupInput types) (n : ℕ),
      producedGroups input groups n = q.sqlGroups input n) ↔ q.GroupsRepresented types := by
  constructor
  · intro h
    let empty : GroupInput types := ⟨fun _ => ⟨fun _ => none, by simp⟩, fun _ _ => none⟩
    have hset := oneSet_of_groups_eq empty (h empty 1)
    obtain ⟨items, hitems, hsql⟩ := exists_setGroups hq hset
    refine ⟨hset, ?_, ?_⟩
    · -- Without rows there is no group of a constant.
      by_contra hkey
      rw [not_or] at hkey
      obtain ⟨hclause, hkey⟩ := hkey
      have hgroups : groups = [] := by
        apply List.eq_nil_iff_forall_not_mem.mpr
        intro spec hspec
        exact hkey ⟨spec, (mem_groupSpecs hspecs spec).mp hspec⟩
      have hitemsNe : items.isEmpty = false := by
        obtain ⟨item, hitem⟩ := List.exists_mem_of_ne_nil _ hclause
        rw [List.isEmpty_eq_false_iff]
        exact List.ne_nil_of_mem ((hitems item).mpr hitem)
      have hzero := h empty 0
      rw [hsql, hgroups] at hzero
      simp [producedGroups, setGroups, hitemsNe, groupsBy_zero] at hzero
    · intro col hcol
      by_contra hkind
      have ht : isRefOid (types col) = true ∨ isFloatType (types col) = true := by
        rw [not_and_or, Bool.not_eq_false, Bool.not_eq_false] at hkind
        exact hkind
      obtain ⟨c, c', hc, hc', hvalue, hgroup⟩ := exists_sameValue ht
      let input : GroupInput types :=
        ⟨fun i => if i = 0 then rowOf types col c hc else rowOf types col c' hc', fun _ _ => none⟩
      have hkey : .column col ∈ groups := (mem_groupSpecs hspecs _).mpr hcol
      have hitem : .key (.column col) ∈ items := (hitems _).mpr hcol
      have htwo := h input 2
      rw [hsql] at htwo
      -- The two rows agree on every value, and are grouped apart.
      have hvalues : ∀ spec : GroupKeySpec, spec.value input 0 = spec.value input 1 := by
        intro spec
        cases spec with
        | expr key => rfl
        | column i => by_cases hi : i = col <;> simp [GroupKeySpec.value, input, rowOf, hi, hvalue]
      have hplaces : GroupKeySpec.execValue input (.column col) 0 ≠
          GroupKeySpec.execValue input (.column col) 1 := by
        simp [GroupKeySpec.execValue, input, rowOf, hgroup]
      have hsqlKey : (items.map fun item => item.value input 0) =
          items.map fun item => item.value input 1 :=
        (map_value_eq_iff input 1 0).mpr fun spec _ => hvalues spec
      have hexecKey : (groups.map fun spec => spec.execValue input 0) ≠
          groups.map fun spec => spec.execValue input 1 :=
        fun heq => hplaces (List.map_inj_left.mp heq _ hkey)
      simp [producedGroups, setGroups, List.ne_nil_of_mem hkey, List.ne_nil_of_mem hitem,
        groupsBy_two, hsqlKey, hexecKey] at htwo
  · intro h input n
    obtain ⟨items, hitems, hsql⟩ := exists_setGroups hq h.oneSet
    rw [hsql]
    rcases h.hasKey with hnil | ⟨spec, hspec⟩
    · have hgroups : groups = [] := by
        apply List.eq_nil_iff_forall_not_mem.mpr
        intro spec hspec
        have hmem := (mem_groupSpecs hspecs spec).mp hspec
        rw [hnil] at hmem
        cases hmem
      have hitemsNil : items = [] := by
        apply List.eq_nil_iff_forall_not_mem.mpr
        intro item hitem
        have hmem := (hitems item).mp hitem
        rw [hnil] at hmem
        cases hmem
      rw [hgroups, hitemsNil]
      rfl
    · have hgroup := (mem_groupSpecs hspecs spec).mpr hspec
      have hitem := (hitems _).mpr hspec
      simp only [producedGroups, setGroups, List.isEmpty_iff, List.ne_nil_of_mem hgroup,
        List.ne_nil_of_mem hitem, if_false]
      apply groupsBy_congr
      intro i j
      rw [map_value_eq_iff, List.map_inj_left]
      have hexec : ∀ spec ∈ groups, ∀ k, spec.execValue input k = spec.value input k := by
        intro spec hspec
        apply execValue_eq_value
        rintro col rfl
        exact h.byValue col ((mem_groupSpecs hspecs _).mp hspec)
      constructor
      · intro hkeys spec hspec
        have hmem := (mem_groupSpecs hspecs spec).mpr ((hitems _).mp hspec)
        rw [← hexec spec hmem, ← hexec spec hmem]
        exact hkeys spec hmem
      · intro hkeys spec hspec
        rw [hexec spec hspec, hexec spec hspec]
        exact hkeys spec ((hitems _).mpr ((mem_groupSpecs hspecs spec).mp hspec))

end groups

/-! ## The whole plan -/

section plan

variable {env : PlannerEnv} {q : UpperQuery} {aggrefs : List Aggref} {specs : List AggExecSpec}
  {groups : List GroupKeySpec}

/-- Specs and keys of a path for aggregates; the metadata path has no keys. -/
def Outcome.plan : Outcome → Option (List AggExecSpec × List GroupKeySpec)
  | .minmax specs => some (specs, [])
  | .agg specs groups => some (specs, groups)
  | _ => none

/-- What is recorded is what the clauses were classified as. -/
theorem plan_cases (haggrefs : q.aggrefs = some aggrefs)
    (hplan : (createUpperPaths env q).plan = some (specs, groups)) :
    aggrefs.mapM (classify env.types) = some specs ∧ groupSpecs q.groupClause = some groups := by
  unfold createUpperPaths at hplan
  simp only [haggrefs] at hplan
  split at hplan
  · cases hplan
  · cases hplan
  · rename_i aggrefs' _ heq
    cases heq
    split at hplan
    · cases hplan
    · split at hplan
      · cases hplan
      · rename_i specs' hspecs'
        split at hplan
        · rename_i hmeta
          cases hplan
          have hempty : q.groupClause = [] := by
            simp_all
          exact ⟨hspecs', by rw [hempty]; rfl⟩
        · split at hplan
          · rename_i hminmax
            have hempty : q.groupClause = [] := by
              simp_all
            split at hplan
            · cases hplan
            · split at hplan
              · cases hplan
                exact ⟨hspecs', by rw [hempty]; rfl⟩
              · cases hplan
          · split at hplan
            · cases hplan
            · split at hplan
              · cases hplan
              · rename_i groups' hgroups'
                cases hplan
                exact ⟨hspecs', hgroups'⟩

/-- Every spec computes its aggregate over the rows of any group, and the groups
are those of the query. -/
structure MeaningPreserved (collations : ℕ → Collation) (types : ℕ → TypeOid) (q : UpperQuery)
    (aggrefs : List Aggref) (specs : List AggExecSpec) (groups : List GroupKeySpec) : Prop where
  specs_denote : List.Forall₂ (fun a spec => Denotes collations types spec a) aggrefs specs
  groups_eq : ∀ (input : GroupInput types) (n : ℕ),
    producedGroups input groups n = q.sqlGroups input n

theorem forall₂_denotes_iff {collations : ℕ → Collation} {types : ℕ → TypeOid}
    (hvalid : ∀ a ∈ aggrefs, a.Valid types) (hspecs : aggrefs.mapM (classify types) = some specs) :
    List.Forall₂ (fun a spec => Denotes collations types spec a) aggrefs specs ↔
      ∀ a ∈ aggrefs, a.Represented collations types := by
  have hforall := Support.ListLookup.forall₂_of_mapM hspecs
  clear hspecs
  induction hforall with
  | nil => simp
  | cons hclassify _ ih =>
      rename_i a spec aggrefs specs _
      have ha := hvalid a List.mem_cons_self
      have hrest := ih fun b hb => hvalid b (List.mem_cons_of_mem a hb)
      rw [List.forall₂_cons, List.forall_mem_cons]
      exact and_congr (denotes_iff_represented ha hclassify) hrest

def codePointCollation : Collation where
  less s t := decide (s < t)
  irrefl s := decide_eq_false (lt_irrefl s)
  trans _ _ _ h h' := decide_eq_true ((of_decide_eq_true h).trans (of_decide_eq_true h'))
  total _ _ h := (lt_or_gt_of_ne h).imp (fun h => decide_eq_true h) fun h => decide_eq_true h

/-- A table of integers, planned without a metadata path. -/
def integerEnv : PlannerEnv :=
  ⟨fun _ => .int4, false, false, false, false, false, false, true⟩

/-- `SELECT count(*), sum(a + 1) … GROUP BY b`. -/
def groupedSumQuery : UpperQuery :=
  ⟨[some [⟨.count, true, false, false, 0, []⟩],
    some [⟨.sum, false, false, false, 0, [.plus 0 ⟨.int4, false, 1⟩]⟩]],
    [.key (.column 1)], none, false⟩

/-- `SELECT sum(DISTINCT a) … GROUP BY b`. -/
def sumDistinctQuery : UpperQuery :=
  ⟨[some [⟨.sum, false, true, false, 0, [.var 0]⟩]], [.key (.column 1)], none, false⟩

end plan

end DeltaX.Agg
