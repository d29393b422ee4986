import DeltaX.Agg.TopN
/-!
# Which Top-N queries are answered

A NULL sort value, a tie that reaches past the rows produced, and a duplicate that
DISTINCT removes from them: each makes a query that some groups answer wrongly, and
a query that sorts by a count and meets none of them is answered on all groups.
-/

namespace DeltaX.Agg

open Column Support.KeyedMerge Support.Selection

/-! ## Groups no Top-N selection gets right -/

def unitAcc (sign : ℤ) : (k : CompactAccKind) → Acc k
  | .count => (0 : ℕ)
  | .sumInt => ((sign, 1) : ℤ × ℕ)
  | .sumIntNarrow => ((sign, 1) : ℤ × ℕ)
  | .sumFloat => (((sign : ℚ), 1) : ℚ × ℕ)
  | .minInt => MinAcc.mk (some sign)
  | .maxInt => MaxAcc.mk (some sign)
  | .countDistinctInt => DistinctAcc.mk ∅

/-- A slot that saw no value is NULL and reads as zero; a slot that saw one value
is not NULL and reads as that value. -/
theorem nullable_slot {spec : CompactSpec} (hadmitted : sortAdmitted spec.toAggExecSpec = true)
    (hcount : ¬ (spec.aggType = .countStar ∨ spec.aggType = .count ∨
      spec.aggType = .countDistinct)) {sign : ℤ} (hsign : sign = 1 ∨ sign = -1) :
    compactFinalize spec.toAggExecSpec spec.kind 0 = none ∧
      readSortVal spec.aggType spec.kind 0 = 0 ∧
      compactFinalize spec.toAggExecSpec spec.kind (unitAcc sign spec.kind) ≠ none ∧
      readSortVal spec.aggType spec.kind (unitAcc sign spec.kind) = sign := by
  have hfits := fits_of_compactAccKind spec.kind_eq
  obtain ⟨agg, kind, hkind⟩ := spec
  simp only at hadmitted hcount hfits ⊢
  cases kind with
  | count => exact absurd (by rcases hfits with h | h <;> simp [h]) hcount
  | countDistinctInt => exact absurd (Or.inr (Or.inr hfits)) hcount
  | minInt =>
      refine ⟨rfl, rfl, by simp [compactFinalize, unitAcc], by simp [readSortVal, unitAcc]⟩
  | maxInt =>
      refine ⟨rfl, rfl, by simp [compactFinalize, unitAcc], by simp [readSortVal, unitAcc]⟩
  | sumInt =>
      refine ⟨rfl, rfl, ?_, ?_⟩
      · rcases hfits.1 with h | h <;> simp [compactFinalize, unitAcc, h, hfits.2]
      · rcases hsign with rfl | rfl <;> rfl
  | sumIntNarrow =>
      rcases hfits.1 with h | h
      · refine ⟨rfl, ?_, by simp [compactFinalize, unitAcc, h], ?_⟩
        · simp [readSortVal, h]
        · simp [readSortVal, unitAcc, h]
      · refine ⟨rfl, ?_, by simp [compactFinalize, unitAcc, h], ?_⟩
        · simp [readSortVal, readAvg, h]
        · simp [readSortVal, readAvg, unitAcc, h]
  | sumFloat =>
      rcases hfits.1 with h | h
      · rcases hfits.2 with ht | ht <;> simp [sortAdmitted, h, ht] at hadmitted
      · refine ⟨rfl, ?_, by simp [compactFinalize, unitAcc, h], ?_⟩
        · simp [readSortVal, readAvg, h]
        · simp [readSortVal, readAvg, unitAcc, h]

theorem compactFullMerge_singleton {specs : List CompactSpec} (w : WorkerMap specs) :
    compactFullMerge [w] = w.groups := rfl

namespace TopNQuery

variable (q : TopNQuery)

/-- A group whose sort aggregate saw no value. -/
def nullGroup : q.Group := (0, 0)

/-- A group whose sort aggregate saw one value. -/
def unitGroup (sign : ℤ) : q.Group :=
  (1, Function.update 0 q.sortSlot (unitAcc sign q.sortSpec.kind))

def nullWorker (sign : ℤ) : WorkerMap q.aggSpecs where
  groups := [q.nullGroup, q.unitGroup sign]
  nodup := by simp [keys, nullGroup, unitGroup]

/-- One worker with groups that are alike but for their keys. -/
def tiedWorker : WorkerMap q.aggSpecs where
  groups := (List.range (q.topnLimit + 1)).map fun i => (BitVec.ofNat 128 i, 0)
  nodup := by
    have hcap := q.capped
    rw [keys, List.map_map, Function.comp_def]
    apply List.Nodup.map_on _ List.nodup_range
    intro i hi j hj heq
    have hmod := congrArg BitVec.toNat heq
    rw [List.mem_range, topnLimit] at hi hj
    simp only [BitVec.toNat_ofNat] at hmod
    omega

variable {q}

/-- The sign that puts the group on the wrong side of NULL. -/
def wrongSign (q : TopNQuery) : ℤ := if q.ascending = q.nullsFirst then -1 else 1

/-- Two groups that are selected by the wrong order give no answer. -/
theorem not_answered_of_swapped {b w : q.Group} {all rows : List q.Group}
    (hval : q.valRank b < q.valRank w) (hrank : q.sortRank w < q.sortRank b)
    (hall : all.Perm [b, w]) (htop : IsTopN q.valRank q.topnLimit all rows)
    (hsorted : rows.Pairwise fun g g' => q.valRank g ≤ q.valRank g') : ¬ q.Answered all rows := by
  intro h
  unfold Answered at h
  cases hdistinct : q.distinct with
  | none =>
      rw [hdistinct] at h
      exact not_answers_of_swapped hval hrank q.limit_pos hall htop hsorted h
  | some columns =>
      rw [hdistinct] at h
      have hne : q.distinctRow columns w ≠ q.distinctRow columns b := by
        intro heq
        have hplace := congrArg (q.distinctRank columns) heq
        rw [distinctRank_distinctRow hdistinct, distinctRank_distinctRow hdistinct] at hplace
        exact hrank.ne hplace
      have hnodup : (all.map (q.distinctRow columns)).Nodup := by
        rw [(hall.map _).nodup_iff]
        simpa using hne.symm
      -- The rows take over the places of their groups.
      let val : List (Option SqlValue) → ℤ := fun row => if row = q.distinctRow columns b then 0 else 1
      have hb : val (q.distinctRow columns b) = 0 := if_pos rfl
      have hw : val (q.distinctRow columns w) = 1 := if_neg hne
      have hmem : ∀ g ∈ all, g = b ∨ g = w := by
        intro g hg
        simpa using hall.subset hg
      have hmono : ∀ g ∈ all, ∀ g' ∈ all, q.valRank g ≤ q.valRank g' →
          val (q.distinctRow columns g) ≤ val (q.distinctRow columns g') := by
        intro g hg g' hg' hle
        rcases hmem g hg with rfl | rfl <;> rcases hmem g' hg' with rfl | rfl
        · exact le_refl _
        · rw [hb, hw]
          exact zero_le_one
        · exact absurd hle (not_le.mpr hval)
        · exact le_refl _
      have hunique : IsTopN val q.topnLimit (q.uniqueRows columns all) (q.uniqueRows columns rows) :=
        (htop.of_le hmono).dedup_of_nodup _ (fun _ _ => rfl) hnodup
      have hrows : q.uniqueRows columns rows = rows.map (q.distinctRow columns) :=
        List.dedup_eq_self.mpr (htop.nodup_map hnodup)
      have hpairs : (q.uniqueRows columns all).Perm [q.distinctRow columns b, q.distinctRow columns w] := by
        rw [uniqueRows, List.dedup_eq_self.mpr hnodup]
        exact hall.map _
      apply not_answers_of_swapped _ _ q.limit_pos hpairs hunique _ h.2
      · rw [hb, hw]
        exact zero_lt_one
      · rw [distinctRank_distinctRow hdistinct, distinctRank_distinctRow hdistinct]
        exact hrank
      · rw [hrows, List.pairwise_map]
        apply hsorted.imp_of_mem
        intro g g' hg hg' hle
        exact hmono g (htop.subset hg) g' (htop.subset hg') hle

theorem not_answered_nullWorker (hcount : ¬ q.CountSort) :
    ¬ q.TopNAnswered 1 (fun _ => true) (HashOrder.asIs _) [q.nullWorker q.wrongSign] := by
  rintro ⟨hanswered, -⟩
  have hsign : q.wrongSign = 1 ∨ q.wrongSign = -1 := by
    unfold wrongSign
    split <;> simp
  obtain ⟨hnull, hzero, hunit, hone⟩ := nullable_slot q.admitted hcount hsign
  have hnullVal : q.sortVal q.nullGroup = 0 := hzero
  have hnullValue : q.sortValue q.nullGroup = none := Option.map_eq_none_iff.mpr hnull
  have hslot : (q.unitGroup q.wrongSign).2 q.sortSlot = unitAcc q.wrongSign q.sortSpec.kind :=
    Function.update_self _ _ _
  have hunitVal : q.sortVal (q.unitGroup q.wrongSign) = q.wrongSign := by
    rw [sortVal, hslot]
    exact hone
  obtain ⟨v, hunitValue⟩ : ∃ v, q.sortValue (q.unitGroup q.wrongSign) = some v := by
    apply Option.ne_none_iff_exists'.mp
    rw [sortValue, hslot]
    exact fun h => hunit (Option.map_eq_none_iff.mp h)
  have htop := isTopN_partitionedGroups 1 (fun _ => true) (HashOrder.asIs q.Group)
    [q.nullWorker q.wrongSign]
  have hsorted := pairwise_partitionedGroups 1 (fun _ => true) (HashOrder.asIs q.Group)
    [q.nullWorker q.wrongSign]
  rw [compactFullMerge_singleton, List.filter_true] at htop hanswered
  cases hfirst : q.nullsFirst with
  | true =>
      apply not_answered_of_swapped (b := q.unitGroup q.wrongSign) (w := q.nullGroup) _ _
        (List.Perm.swap _ _ _) htop hsorted hanswered
      · rw [valRank, valRank, hnullVal, hunitVal, wrongSign, hfirst]
        cases q.ascending <;> simp
      · rw [sortRank, sortRank, hnullValue, hunitValue, placeOf, placeOf, hfirst]
        apply Prod.Lex.toLex_lt_toLex.mpr
        simp
  | false =>
      apply not_answered_of_swapped (b := q.nullGroup) (w := q.unitGroup q.wrongSign) _ _
        (List.Perm.refl _) htop hsorted hanswered
      · rw [valRank, valRank, hnullVal, hunitVal, wrongSign, hfirst]
        cases q.ascending <;> simp
      · rw [sortRank, sortRank, hnullValue, hunitValue, placeOf, placeOf, hfirst]
        apply Prod.Lex.toLex_lt_toLex.mpr
        simp

theorem packed_of_lt {k : BitVec 128} (h : k.toNat < 18446744073709551616) : q.PackedKey k :=
  fun _ => h

theorem packed_nullWorker (sign : ℤ) : q.Packed [q.nullWorker sign] := by
  intro w hw g hg
  rw [List.mem_singleton.mp hw] at hg
  rcases List.mem_pair.mp hg with rfl | rfl
  · exact packed_of_lt (show (0 : BitVec 128).toNat < _ by decide)
  · exact packed_of_lt (show (1 : BitVec 128).toNat < _ by decide)

theorem packed_tiedWorker : q.Packed [q.tiedWorker] := by
  have hcap := q.capped
  intro w hw g hg
  rw [List.mem_singleton.mp hw] at hg
  obtain ⟨i, hi, rfl⟩ := List.mem_map.mp hg
  rw [List.mem_range, topnLimit] at hi
  apply packed_of_lt
  rw [BitVec.toNat_ofNat]
  omega

/-- Groups that are alike but for their keys, one more than is produced: ties are missed
where the rows show the keys. -/
theorem not_answered_tiedWorker (hties : q.withTies = true)
    (hshown : ∀ columns, q.distinct = some columns → q.KeysShown columns) :
    ¬ q.TopNAnswered 1 (fun _ => true) (HashOrder.asIs _) [q.tiedWorker] := by
  rintro ⟨hanswered, -⟩
  have htop := isTopN_partitionedGroups 1 (fun _ => true) (HashOrder.asIs q.Group) [q.tiedWorker]
  rw [compactFullMerge_singleton, List.filter_true] at htop hanswered
  have hlen : q.tiedWorker.groups.length = q.limit + q.offset + 1 := by
    simp [tiedWorker, topnLimit]
  have htied : ∀ g ∈ q.tiedWorker.groups, ∀ g' ∈ q.tiedWorker.groups,
      q.sortRank g = q.sortRank g' := by
    intro g hg g' hg'
    obtain ⟨i, -, rfl⟩ := List.mem_map.mp hg
    obtain ⟨j, -, rfl⟩ := List.mem_map.mp hg'
    rfl
  have hrows := htop.length_eq
  rw [hlen, topnLimit] at hrows
  unfold Answered at hanswered
  rw [hties] at hanswered
  cases hdistinct : q.distinct with
  | none =>
      rw [hdistinct] at hanswered
      apply not_answers_of_tied q.limit_pos hlen htied _ hanswered
      omega
  | some columns =>
      rw [hdistinct] at hanswered
      have hnodup : (q.tiedWorker.groups.map (q.distinctRow columns)).Nodup := by
        apply q.tiedWorker.nodup.of_map.map_on
        intro g hg g' hg' heq
        have hkeys := hshown columns hdistinct g g'
          (packed_tiedWorker _ List.mem_cons_self g hg)
          (packed_tiedWorker _ List.mem_cons_self g' hg') heq
        exact List.inj_on_of_nodup_map q.tiedWorker.nodup hg hg' hkeys
      have hlimit := hanswered.2
      rw [uniqueRows, uniqueRows, List.dedup_eq_self.mpr hnodup,
        List.dedup_eq_self.mpr (htop.nodup_map hnodup)] at hlimit
      apply not_answers_of_tied q.limit_pos _ _ _ hlimit
      · rw [List.length_map, hlen]
      · intro row hrow row' hrow'
        obtain ⟨g, hg, rfl⟩ := List.mem_map.mp hrow
        obtain ⟨g', hg', rfl⟩ := List.mem_map.mp hrow'
        rw [distinctRank_distinctRow hdistinct, distinctRank_distinctRow hdistinct]
        exact htied g hg g' hg'
      · rw [List.length_map]
        omega

/-! ### Groups that one DISTINCT row stands for -/

/-- The values in the columns are those of the keys and those of the accumulators. -/
theorem distinctRow_eq_iff {columns : List OutputEntry} {g g' : q.Group} :
    q.distinctRow columns g = q.distinctRow columns g' ↔
      q.distinctRow columns (g.1, 0) = q.distinctRow columns (g'.1, 0) ∧
        q.distinctRow columns (0, g.2) = q.distinctRow columns (0, g'.2) := by
  simp only [distinctRow, List.map_inj_left]
  constructor
  · intro h
    constructor
    · intro e he
      cases e with
      | agg ai => rfl
      | group gi => exact h _ he
      | const v => rfl
      | derivedGroup baseGi delta => exact h _ he
    · intro e he
      cases e with
      | agg ai => exact h _ he
      | group gi => rfl
      | const v => rfl
      | derivedGroup baseGi delta => rfl
  · rintro ⟨hkeys, haccs⟩ e he
    cases e with
    | agg ai => exact haccs _ he
    | group gi => exact hkeys _ he
    | const v => rfl
    | derivedGroup baseGi delta => exact hkeys _ he

def pairWorker (g g' : q.Group) (hne : g.1 ≠ g'.1) : WorkerMap q.aggSpecs where
  groups := [g, g']
  nodup := by simpa [keys] using hne

/-- Where groups of one sort value differ in the columns, one row leaves a tie out. -/
theorem not_answered_pairWorker {columns : List OutputEntry} (hdistinct : q.distinct = some columns)
    (hone : q.topnLimit = 1) (hties : q.withTies = true) {g g' : q.Group} (hne : g.1 ≠ g'.1)
    (hvalue : q.sortValue g = q.sortValue g')
    (hrow : q.distinctRow columns g ≠ q.distinctRow columns g') :
    ¬ q.TopNAnswered 1 (fun _ => true) (HashOrder.asIs _) [pairWorker g g' hne] := by
  rintro ⟨hanswered, -⟩
  have htop := isTopN_partitionedGroups 1 (fun _ => true) (HashOrder.asIs q.Group)
    [pairWorker g g' hne]
  rw [compactFullMerge_singleton, List.filter_true] at htop hanswered
  have hnodup : ((pairWorker g g' hne).groups.map (q.distinctRow columns)).Nodup := by
    simpa [pairWorker] using hrow
  have hrows := htop.length_eq
  rw [hone] at hrows
  have hlimit : q.limit + q.offset = 1 := hone
  rw [Answered, hdistinct, hties] at hanswered
  have hlimited := hanswered.2
  rw [uniqueRows, uniqueRows, List.dedup_eq_self.mpr hnodup,
    List.dedup_eq_self.mpr (htop.nodup_map hnodup)] at hlimited
  apply not_answers_of_tied q.limit_pos _ _ _ hlimited
  · rw [List.length_map, hlimit]
    rfl
  · have hsame : ∀ h ∈ (pairWorker g g' hne).groups, q.sortRank h = q.sortRank g := by
      intro h hmem
      rcases List.mem_pair.mp hmem with rfl | rfl
      · rfl
      · rw [sortRank, sortRank, hvalue]
    intro row hrow row' hrow'
    obtain ⟨h, hh, rfl⟩ := List.mem_map.mp hrow
    obtain ⟨h', hh', rfl⟩ := List.mem_map.mp hrow'
    rw [distinctRank_distinctRow hdistinct, distinctRank_distinctRow hdistinct, hsame h hh,
      hsame h' hh']
  · rw [List.length_map, hlimit, hrows]
    rfl

/-- Such groups can have different keys. -/
theorem exists_pair_of_not_valueOnly {columns : List OutputEntry} (h : ¬ q.ValueOnly columns) :
    ∃ g g' : q.Group, q.PackedKey g.1 ∧ q.PackedKey g'.1 ∧ g.1 ≠ g'.1 ∧
      q.sortValue g = q.sortValue g' ∧ q.distinctRow columns g ≠ q.distinctRow columns g' := by
  unfold ValueOnly at h
  push Not at h
  obtain ⟨g, g', hpacked, hpacked', hvalue, hrow⟩ := h
  by_cases hkey : g.1 = g'.1
  · -- The keys are the same, so the accumulators tell the rows apart.
    have hzero : (0 : BitVec 128).toNat < 18446744073709551616 := by decide
    have hone : (1 : BitVec 128).toNat < 18446744073709551616 := by decide
    refine ⟨(0, g.2), (1, g'.2), packed_of_lt hzero, packed_of_lt hone,
      (by decide : (0 : BitVec 128) ≠ 1), hvalue, ?_⟩
    intro heq
    apply hrow
    rw [distinctRow_eq_iff] at heq ⊢
    exact ⟨by rw [hkey], heq.2⟩
  · exact ⟨g, g', hpacked, hpacked', hkey, hvalue, hrow⟩

/-- A slot that counted `n`. -/
def countAcc (n : ℕ) : (k : CompactAccKind) → Acc k
  | .count => n
  | .countDistinctInt => DistinctAcc.mk ((Finset.range n).image fun i : ℕ => (i : ℤ))
  | .sumInt => (0 : ℤ × ℕ)
  | .sumIntNarrow => (0 : ℤ × ℕ)
  | .sumFloat => (0 : ℚ × ℕ)
  | .minInt => MinAcc.mk none
  | .maxInt => MaxAcc.mk none

theorem count_slot {spec : CompactSpec} (hcount : spec.aggType = .countStar ∨
      spec.aggType = .count ∨ spec.aggType = .countDistinct) (n : ℕ) :
    (compactFinalize spec.toAggExecSpec spec.kind (countAcc n spec.kind)).map SqlValue.toRat =
        some (n : ℚ) ∧
      readSortVal spec.aggType spec.kind (countAcc n spec.kind) = n := by
  have hfits := fits_of_compactAccKind spec.kind_eq
  obtain ⟨agg, kind, hkind⟩ := spec
  simp only at hcount hfits ⊢
  cases kind with
  | count => simp [compactFinalize, countAcc, readSortVal, SqlValue.toRat]
  | countDistinctInt =>
      have hcard : ((Finset.range n).image fun i : ℕ => (i : ℤ)).card = n := by
        rw [Finset.card_image_of_injective _ Nat.cast_injective, Finset.card_range]
      simp [compactFinalize, countAcc, readSortVal, SqlValue.toRat, hcard]
  | sumInt => rcases hfits.1 with h | h <;> simp [h] at hcount
  | sumIntNarrow => rcases hfits.1 with h | h <;> simp [h] at hcount
  | sumFloat => rcases hfits.1 with h | h <;> simp [h] at hcount
  | minInt =>
      have hagg : agg.aggType = .min := hfits
      simp [hagg] at hcount
  | maxInt =>
      have hagg : agg.aggType = .max := hfits
      simp [hagg] at hcount

def countGroup (q : TopNQuery) (k : BitVec 128) (n : ℕ) : q.Group :=
  (k, Function.update 0 q.sortSlot (countAcc n q.sortSpec.kind))

theorem sortValue_countGroup (hcount : q.CountSort) (k : BitVec 128) (n : ℕ) :
    q.sortValue (q.countGroup k n) = some (n : ℚ) := by
  have hslot : (q.countGroup k n).2 q.sortSlot = countAcc n q.sortSpec.kind :=
    Function.update_self _ _ _
  rw [sortValue, hslot]
  exact (count_slot hcount n).1

theorem sortVal_countGroup (hcount : q.CountSort) (k : BitVec 128) (n : ℕ) :
    q.sortVal (q.countGroup k n) = n := by
  have hslot : (q.countGroup k n).2 q.sortSlot = countAcc n q.sortSpec.kind :=
    Function.update_self _ _ _
  rw [sortVal, hslot]
  exact (count_slot hcount n).2

/-- Keys beside two given ones, one fewer than is produced. -/
def otherKeys (q : TopNQuery) (k k' : BitVec 128) : List (BitVec 128) :=
  ((((List.range (q.topnLimit + 1)).map (BitVec.ofNat 128)).erase k).erase k').take
    (q.topnLimit - 1)

def firstCount (q : TopNQuery) : ℕ := if q.ascending then 0 else 20000

def laterCount (q : TopNQuery) (k : BitVec 128) : ℕ :=
  if q.ascending then k.toNat + 1 else 19999 - k.toNat

theorem nodup_smallKeys (q : TopNQuery) :
    ((List.range (q.topnLimit + 1)).map (BitVec.ofNat 128)).Nodup := by
  have hcap := q.capped
  apply List.Nodup.map_on _ List.nodup_range
  intro i hi j hj heq
  have hmod := congrArg BitVec.toNat heq
  rw [List.mem_range, topnLimit] at hi hj
  simp only [BitVec.toNat_ofNat] at hmod
  omega

theorem mem_otherKeys {k k' key : BitVec 128} (h : key ∈ q.otherKeys k k') :
    key ≠ k ∧ key ≠ k' ∧ key.toNat ≤ 10000 := by
  have hcap := q.capped
  have hall := List.mem_of_mem_take h
  have hfirst := q.nodup_smallKeys.erase k
  obtain ⟨hne', hmem⟩ := hfirst.mem_erase_iff.mp hall
  obtain ⟨hne, hmem⟩ := q.nodup_smallKeys.mem_erase_iff.mp hmem
  obtain ⟨i, hi, rfl⟩ := List.mem_map.mp hmem
  rw [List.mem_range, topnLimit] at hi
  refine ⟨hne, hne', ?_⟩
  rw [BitVec.toNat_ofNat]
  omega

theorem nodup_otherKeys (q : TopNQuery) (k k' : BitVec 128) : (q.otherKeys k k').Nodup :=
  ((q.nodup_smallKeys.erase k).erase k').sublist (List.take_sublist _ _)

theorem length_otherKeys (q : TopNQuery) (k k' : BitVec 128) :
    (q.otherKeys k k').length = q.topnLimit - 1 := by
  have hpos := q.limit_pos
  rw [otherKeys, List.length_take, List.length_erase, List.length_erase, List.length_map,
    List.length_range, topnLimit]
  split_ifs <;> omega

/-- A worker with two groups that come first, and others after them. -/
def duplicateWorker (q : TopNQuery) (k k' : BitVec 128) (hne : k ≠ k') : WorkerMap q.aggSpecs where
  groups := q.countGroup k q.firstCount :: q.countGroup k' q.firstCount ::
    (q.otherKeys k k').map fun key => q.countGroup key (q.laterCount key)
  nodup := by
    have hkeys : keys ((q.otherKeys k k').map fun key => q.countGroup key (q.laterCount key)) =
        q.otherKeys k k' := by
      rw [keys, List.map_map]
      exact List.map_id _
    show (k :: k' :: keys _).Nodup
    rw [hkeys, List.nodup_cons, List.nodup_cons]
    refine ⟨?_, fun hmem => (mem_otherKeys hmem).2.1 rfl, q.nodup_otherKeys k k'⟩
    intro hmem
    rcases List.mem_cons.mp hmem with heq | hmem
    · exact hne heq
    · exact (mem_otherKeys hmem).1 rfl

theorem packed_duplicateWorker {k k' : BitVec 128} (hne : k ≠ k') (hk : q.PackedKey k)
    (hk' : q.PackedKey k') : q.Packed [q.duplicateWorker k k' hne] := by
  intro w hw g hg
  rw [List.mem_singleton.mp hw] at hg
  rcases List.mem_cons.mp hg with rfl | hg
  · exact hk
  · rcases List.mem_cons.mp hg with rfl | hg
    · exact hk'
    · obtain ⟨key, hkey, rfl⟩ := List.mem_map.mp hg
      have hsmall := (mem_otherKeys hkey).2.2
      exact packed_of_lt (show key.toNat < _ by omega)

theorem valRank_firstCount_lt (hcount : q.CountSort) (k₀ key : BitVec 128) :
    q.valRank (q.countGroup k₀ q.firstCount) < q.valRank (q.countGroup key (q.laterCount key)) := by
  rw [valRank, valRank, sortVal_countGroup hcount, sortVal_countGroup hcount, firstCount, laterCount]
  split
  · rw [Nat.cast_zero]
    exact_mod_cast Nat.succ_pos key.toNat
  · rw [neg_lt_neg_iff]
    exact_mod_cast (by omega : 19999 - key.toNat < 20000)

theorem nodup_rows_duplicateWorker {columns : List OutputEntry} (hcount : q.CountSort)
    (hdistinct : q.distinct = some columns) (k k' : BitVec 128) :
    ((q.countGroup k' q.firstCount :: (q.otherKeys k k').map fun key =>
      q.countGroup key (q.laterCount key)).map (q.distinctRow columns)).Nodup := by
  have hcounts : (q.firstCount :: (q.otherKeys k k').map q.laterCount).Nodup := by
    rw [List.nodup_cons]
    constructor
    · intro hmem
      obtain ⟨key, -, heq⟩ := List.mem_map.mp hmem
      rw [firstCount, laterCount] at heq
      split at heq <;> omega
    · apply (q.nodup_otherKeys k k').map_on
      intro key hkey key' hkey' heq
      have hsmall := (mem_otherKeys hkey).2.2
      have hsmall' := (mem_otherKeys hkey').2.2
      apply BitVec.eq_of_toNat_eq
      rw [laterCount, laterCount] at heq
      split at heq <;> omega
  -- A row has its count in it.
  apply List.Nodup.of_map (q.distinctRank columns)
  rw [List.map_map]
  have hranks : (q.countGroup k' q.firstCount :: (q.otherKeys k k').map fun key =>
      q.countGroup key (q.laterCount key)).map (q.distinctRank columns ∘ q.distinctRow columns) =
      (q.firstCount :: (q.otherKeys k k').map q.laterCount).map fun n : ℕ =>
        q.placeOf (some (n : ℚ)) := by
    simp only [List.map_cons, List.map_map, Function.comp_def, distinctRank_distinctRow hdistinct,
      sortRank, sortValue_countGroup hcount]
  rw [hranks]
  apply hcounts.map
  intro n m heq
  exact_mod_cast Option.some.inj (placeOf_injective heq)

/-- Where two groups have one row, the row of the group that was left out is missed. -/
theorem not_answered_duplicateWorker {columns : List OutputEntry} (hcount : q.CountSort)
    (hdistinct : q.distinct = some columns) (htwo : q.topnLimit ≠ 1) {k k' : BitVec 128}
    (hne : k ≠ k') (hrow : q.distinctRow columns (k, 0) = q.distinctRow columns (k', 0)) :
    ¬ q.TopNAnswered 1 (fun _ => true) (HashOrder.asIs _) [q.duplicateWorker k k' hne] := by
  rintro ⟨hanswered, -⟩
  have htop := isTopN_partitionedGroups 1 (fun _ => true) (HashOrder.asIs q.Group)
    [q.duplicateWorker k k' hne]
  rw [compactFullMerge_singleton, List.filter_true] at htop hanswered
  have hpos : 0 < q.limit := q.limit_pos
  have hlimit : 2 ≤ q.topnLimit := by
    unfold topnLimit at htwo ⊢
    omega
  have hlen : (q.duplicateWorker k k' hne).groups.length = q.topnLimit + 1 := by
    simp only [duplicateWorker, List.length_cons, List.length_map, length_otherKeys]
    omega
  have hvals : ∀ k₀, (q.duplicateWorker k k' hne).groups.countP
      (fun g => decide (q.valRank g ≤ q.valRank (q.countGroup k₀ q.firstCount))) ≤ q.topnLimit := by
    intro k₀
    have hothers : ((q.otherKeys k k').map fun key => q.countGroup key (q.laterCount key)).countP
        (fun g => decide (q.valRank g ≤ q.valRank (q.countGroup k₀ q.firstCount))) = 0 := by
      rw [List.countP_eq_zero]
      intro g hg
      obtain ⟨key, -, rfl⟩ := List.mem_map.mp hg
      simpa using valRank_firstCount_lt hcount k₀ key
    have hpair : [q.countGroup k q.firstCount, q.countGroup k' q.firstCount].countP
        (fun g => decide (q.valRank g ≤ q.valRank (q.countGroup k₀ q.firstCount))) ≤ 2 :=
      List.countP_le_length
    have hgroups : (q.duplicateWorker k k' hne).groups =
        [q.countGroup k q.firstCount, q.countGroup k' q.firstCount] ++
          (q.otherKeys k k').map fun key => q.countGroup key (q.laterCount key) := rfl
    rw [hgroups, List.countP_append, hothers]
    exact hpair.trans hlimit
  have hfirst : q.countGroup k q.firstCount ∈
      partitionedGroups q 1 (fun _ => true) (HashOrder.asIs q.Group) [q.duplicateWorker k k' hne] :=
    htop.mem_of_countP_le List.mem_cons_self (hvals k)
  have hsecond : q.countGroup k' q.firstCount ∈
      partitionedGroups q 1 (fun _ => true) (HashOrder.asIs q.Group) [q.duplicateWorker k k' hne] :=
    htop.mem_of_countP_le (List.mem_cons_of_mem _ List.mem_cons_self) (hvals k')
  have hsame : q.distinctRow columns (q.countGroup k q.firstCount) =
      q.distinctRow columns (q.countGroup k' q.firstCount) := distinctRow_eq_iff.mpr ⟨hrow, rfl⟩
  have hdiffer : q.countGroup k q.firstCount ≠ q.countGroup k' q.firstCount :=
    fun heq => hne (congrArg Prod.fst heq)
  rw [Answered, hdistinct] at hanswered
  apply not_answers_of_few _ q.limit_pos _ hanswered.2
  · have hall := (List.subperm_of_subset (nodup_rows_duplicateWorker hcount hdistinct k k')
      (fun row hmem => List.mem_dedup.mpr
        (List.map_subset _ (List.subset_cons_self _ _) hmem) :
        _ ⊆ q.uniqueRows columns (q.duplicateWorker k k' hne).groups)).length_le
    rw [List.length_map, List.length_cons, List.length_map, length_otherKeys] at hall
    calc
      q.limit + q.offset = q.topnLimit - 1 + 1 := by
        unfold topnLimit
        omega
      _ ≤ (q.uniqueRows columns (q.duplicateWorker k k' hne).groups).length := hall
  · have hfew := length_dedup_map_lt hfirst hsecond hdiffer hsame
    have hrows := htop.length_eq
    rw [hlen] at hrows
    unfold topnLimit at hrows
    unfold uniqueRows
    omega

/-- A query whose left-out rows are missed has an input that shows it. -/
theorem nothingCut_of_answered (hcount : q.CountSort)
    (h : ∀ workers, q.Packed workers →
      q.TopNAnswered 1 (fun _ => true) (HashOrder.asIs _) workers) : q.NothingCut := by
  unfold NothingCut
  cases hdistinct : q.distinct with
  | none =>
      by_contra hties
      apply not_answered_tiedWorker (by simpa using hties) _ (h _ packed_tiedWorker)
      intro columns hsome
      rw [hdistinct] at hsome
      cases hsome
  | some columns =>
      by_cases hone : q.topnLimit = 1
      · right
        refine ⟨hone, ?_⟩
        cases hties : q.withTies with
        | false => exact Or.inl rfl
        | true =>
            right
            by_contra hvalue
            obtain ⟨g, g', hg, hg', hne, hsame, hrow⟩ := exists_pair_of_not_valueOnly hvalue
            apply not_answered_pairWorker hdistinct hone hties hne hsame hrow (h _ _)
            intro w hw r hr
            rw [List.mem_singleton.mp hw] at hr
            rcases List.mem_pair.mp hr with rfl | rfl
            · exact hg
            · exact hg'
      · left
        have hshown : q.KeysShown columns := by
          intro g g' hg hg' heq
          by_contra hne
          exact not_answered_duplicateWorker hcount hdistinct hone hne
            (distinctRow_eq_iff.mp heq).1 (h _ (packed_duplicateWorker hne hg hg'))
        refine ⟨hshown, ?_⟩
        by_contra hties
        apply not_answered_tiedWorker (by simpa using hties) _ (h _ packed_tiedWorker)
        intro columns' hsome
        rw [hdistinct] at hsome
        exact Option.some.inj hsome ▸ hshown

theorem packed_compactFullMerge {workers : List (WorkerMap q.aggSpecs)} (h : q.Packed workers)
    {g : q.Group} (hg : g ∈ compactFullMerge workers) : q.PackedKey g.1 := by
  obtain ⟨w, hw, hkey⟩ := mem_groupKeys.mp (mem_compactFullMerge.mp hg).1
  obtain ⟨g', hg', heq⟩ := List.mem_map.mp hkey
  exact heq ▸ h w hw g' hg'

/-- Sorting by a count, a query misses nothing that it leaves out. -/
theorem answered_of_nothingCut {all rows : List q.Group} (hcount : q.CountSort)
    (hcut : q.NothingCut) (hnodup : (keys all).Nodup) (hpacked : ∀ g ∈ all, q.PackedKey g.1)
    (htop : IsTopN q.valRank q.topnLimit all rows)
    (hsorted : rows.Pairwise fun g g' => q.valRank g ≤ q.valRank g') : q.Answered all rows := by
  have havg : ¬ q.AvgBigint := by
    rintro ⟨havg, -⟩
    simp [CountSort, havg] at hcount
  have hnull : ∀ g ∈ all, q.sortValue g ≠ none := fun g _ => sortValue_ne_none_of_countSort hcount g
  unfold NothingCut at hcut
  cases hdistinct : q.distinct with
  | none =>
      rw [hdistinct] at hcut
      have hties : q.withTies = false := hcut
      apply answered_of_notDistinct havg hnull htop hsorted hdistinct
      simp [hties]
  | some columns =>
      rw [hdistinct] at hcut
      rcases hcut with ⟨hshown, hties⟩ | ⟨hone, hties⟩
      · apply answered_of_distinct havg hnull htop hsorted hdistinct
        · left
          apply hnodup.of_map.map_on
          intro g hg g' hg' heq
          exact List.inj_on_of_nodup_map hnodup hg hg'
            (hshown g g' (hpacked g hg) (hpacked g' hg') heq)
        · simp [hties]
      · apply answered_of_distinct havg hnull htop hsorted hdistinct
        · exact Or.inr (Or.inr hone)
        · intro hasked
          rcases hties with hties | hvalue
          · rw [hties] at hasked
            cases hasked
          · exact Or.inr ⟨hvalue, hpacked⟩

theorem topNAnswered_of_nothingCut {nWorkers : ℕ} {passes : q.Group → Bool}
    {order : HashOrder q.Group} {workers : List (WorkerMap q.aggSpecs)} (hcount : q.CountSort)
    (hcut : q.NothingCut) (hpacked : q.Packed workers) :
    q.TopNAnswered nWorkers passes order workers := by
  have hall : ∀ g ∈ compactFullMerge workers, q.PackedKey g.1 :=
    fun g hg => packed_compactFullMerge hpacked hg
  constructor
  · exact answered_of_nothingCut hcount hcut (nodup_keys_filter (nodup_keys_compactFullMerge _) _)
      (fun g hg => hall g (List.mem_of_mem_filter hg))
      (isTopN_partitionedGroups nWorkers passes order workers)
      (pairwise_partitionedGroups nWorkers passes order workers)
  · exact answered_of_nothingCut hcount hcut (nodup_keys_compactFullMerge _) hall
      (isTopN_compactTopnSelect order _) (pairwise_sortByVal order _)

end TopNQuery

def sumIntegerSpec : CompactSpec := ⟨⟨.sum, 1, .int4, .column, 0, .none⟩, .sumIntNarrow, rfl⟩

/-- `SELECT k, SUM(x) … GROUP BY k ORDER BY SUM(x) LIMIT 1`. -/
def sumTopQuery : TopNQuery where
  aggSpecs := [sumIntegerSpec]
  groupSpecs := [⟨0, .int8, .column⟩]
  outputMap := [.group 0, .agg 0]
  sortSlot := ⟨0, Nat.one_pos⟩
  distinct := none
  distinct_sort := first_sorts_no_distinct
  admitted := rfl
  ascending := true
  nullsFirst := false
  withTies := false
  limit := 1
  offset := 0
  limit_pos := Nat.one_pos
  capped := one_row_capped

end DeltaX.Agg
