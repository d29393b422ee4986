import DeltaX.Agg.TopN
import Mathlib.Algebra.Order.BigOperators.Group.List
/-!
# Speculative Top-N

Each worker lists its first groups by sort value and a floor that the groups it
left out do not pass.  The listed keys alone are summed over the workers, and
the first of them are taken for the answer when they pass the sum of the floors,
or when they all tie.
-/

namespace DeltaX.Agg

open Column Support.KeyedMerge Support.Selection

local instance intPreorder : Preorder ℤ := instLatticeInt.toSemilatticeInf.toPreorder

/-! ## Sort words -/

/-- `i64::saturating_add`. -/
def saturatingAdd (a b : ℤ) : ℤ :=
  max (-9223372036854775808) (min 9223372036854775807 (a + b))

/-- `read_val` and `read_sort`: the word of a slot that is compared.  NULL reads
as zero.  AVG and COUNT(DISTINCT), which the other slots are for, do not
speculate. -/
def readWord : (k : CompactAccKind) → Acc k → ℤ
  | .count, (n : ℕ) => n
  | .sumIntNarrow, (acc : ℤ × ℕ) => acc.1
  | .minInt, (acc : MinAcc) => acc.val.getD 0
  | .maxInt, (acc : MaxAcc) => acc.val.getD 0
  | .sumInt, _ => 0
  | .sumFloat, _ => 0
  | .countDistinctInt, _ => 0

namespace TopNQuery

variable (q : TopNQuery)

/-- `compact_sort_is_avg` and `compact_sort_is_cd` are both false. -/
def speculates : Bool :=
  q.sortSpec.aggType != .avg && q.sortSpec.kind != .countDistinctInt

def sortWord (accs : Accs q.aggSpecs) : ℤ := readWord q.sortSpec.kind (accs q.sortSlot)

def turned (v : ℤ) : ℤ := if q.ascending then v else -v

def wordRank (g : q.Group) : ℤ := q.turned (q.sortWord g.2)

/-- The order of a worker's heap, value before key. -/
def entryRank (g : q.Group) : ℤ ×ₗ ℤ := toLex (q.wordRank g, q.turned g.1.toNat)

end TopNQuery

/-- A worker's map, whose sort slots hold 64-bit words. -/
structure PartialResult (q : TopNQuery) extends WorkerMap q.aggSpecs where
  words : ∀ g ∈ groups, -9223372036854775808 ≤ q.sortWord g.2 ∧ q.sortWord g.2 ≤ 9223372036854775807

theorem readSortVal_eq_readWord {spec : CompactSpec}
    (hadmitted : sortAdmitted spec.toAggExecSpec = true) (havg : spec.aggType ≠ .avg)
    (hdistinct : spec.kind ≠ .countDistinctInt) (acc : Acc spec.kind) :
    readSortVal spec.aggType spec.kind acc = (readWord spec.kind acc : ℚ) := by
  have hfits := fits_of_compactAccKind spec.kind_eq
  obtain ⟨agg, kind, hkind⟩ := spec
  simp only at hadmitted havg hdistinct hfits acc ⊢
  cases kind with
  | count => rfl
  | sumIntNarrow => simp [readSortVal, readWord, havg]
  | minInt => rfl
  | maxInt => rfl
  | sumInt =>
      rcases hfits.1 with hsum | h
      · simp [sortAdmitted, hsum, hfits.2] at hadmitted
      · exact absurd h havg
  | sumFloat =>
      rcases hfits.1 with hsum | h
      · rcases hfits.2 with ht | ht <;> simp [sortAdmitted, hsum, ht] at hadmitted
      · exact absurd h havg
  | countDistinctInt => exact absurd rfl hdistinct

/-! ## Worker lists -/

section topk

variable (q : TopNQuery) (order : HashOrder q.Group)

/-- How many groups a worker lists. -/
def topkSize : ℕ := max q.topnLimit 1000

/-- The groups a worker lists: all, or what its heap is left with. -/
def topkGroups (w : PartialResult q) : List q.Group :=
  if w.len ≤ topkSize q then order.reorder w.groups
  else (order.reorder w.groups).foldl (offer q.wordRank q.entryRank (topkSize q)) []

/-- The worst value in the heap of a worker, 0 when the worker lists all groups. -/
def topkFloor (w : PartialResult q) : ℤ :=
  if w.len ≤ topkSize q then 0
  else match (topkGroups q order w).argmax q.entryRank with
    | some worst => q.sortWord worst.2
    | none => 0

def topk (w : PartialResult q) : List (BitVec 128) × ℤ :=
  (keys (topkGroups q order w), topkFloor q order w)

end topk

/-! ## Speculation -/

section speculation

variable (q : TopNQuery) (order : HashOrder q.Group) (workers : List (PartialResult q))

def floorSum : ℤ :=
  workers.foldl (fun sum w => saturatingAdd sum (topk q order w).2) 0

def candidateSet : List (BitVec 128) := (workers.flatMap fun w => (topk q order w).1).dedup

/-- The sort values of a key, added over the workers. -/
def total (packedKey : BitVec 128) : ℤ :=
  workers.foldl
    (fun sum w =>
      match valueAt packedKey w.groups with
      | none => sum
      | some accs => saturatingAdd sum (q.sortWord accs))
    0

/-- `merged`: the first candidates by total.  `ties` is the order in which the
set iterates and the sort leaves equals. -/
def mergedCandidates (ties : HashOrder (ℤ × BitVec 128)) : List (ℤ × BitVec 128) :=
  let entries := (candidateSet q order workers).map fun k => (total q workers k, k)
  ((ties.reorder entries).mergeSort fun e e' => decide (q.turned e.1 ≤ q.turned e'.1)).take
    q.topnLimit

def speculativeOk (merged : List (ℤ × BitVec 128)) : Bool :=
  match merged[q.topnLimit - 1]? with
  | some nth => decide (q.turned nth.1 < q.turned (floorSum q order workers))
  | none => false

def allTied (merged : List (ℤ × BitVec 128)) : Bool :=
  match merged[q.topnLimit - 1]? with
  | some nth => merged.all fun e => decide (e.1 = nth.1)
  | none => false

/-- The groups `compact_speculative_topn` returns, without HAVING, if any. -/
def compactSpeculativeTopn (ties : HashOrder (ℤ × BitVec 128)) : Option (List q.Group) :=
  if !q.speculates then none
  else if (candidateSet q order workers).length * workers.length > 10000000 then none
  else
    let merged := mergedCandidates q order workers ties
    if speculativeOk q order workers merged || allTied q merged then
      some (merged.map fun e => (e.2, mergeKey e.2 (workers.map PartialResult.toWorkerMap)))
    else none

end speculation

/-! ## What a worker lists -/

section lists

variable {q : TopNQuery} {order : HashOrder q.Group}

theorem wordRank_le_of_entryRank_le (g g' : q.Group) (h : q.entryRank g ≤ q.entryRank g') :
    q.wordRank g ≤ q.wordRank g' := by
  rcases Prod.Lex.toLex_le_toLex.mp h with hlt | heq
  · exact hlt.le
  · exact heq.1.le

theorem isTopN_topkGroups (w : PartialResult q) :
    IsTopN q.wordRank (topkSize q) w.groups (topkGroups q order w) := by
  have hperm := order.perm w.groups
  unfold topkGroups
  split
  · rename_i hlen
    exact (isTopN_self_of_length_le hlen).perm (List.Perm.refl _) hperm.symm
  · exact (isTopN_foldl_offer wordRank_le_of_entryRank_le _).perm hperm (List.Perm.refl _)

theorem mem_keys_of_listed {w : PartialResult q} {k : BitVec 128} (h : k ∈ (topk q order w).1) :
    k ∈ keys w.groups := by
  obtain ⟨g, hg, rfl⟩ := List.mem_map.mp h
  exact List.mem_map_of_mem ((isTopN_topkGroups w).subset hg)

/-- A group a worker left out comes after all it lists, and there are enough of
those. -/
theorem listed_before {w : PartialResult q} {g : q.Group} (hg : g ∈ w.groups)
    (hout : g.1 ∉ (topk q order w).1) :
    topkSize q ≤ (topkGroups q order w).length ∧
      ∀ g' ∈ topkGroups q order w, q.wordRank g' ≤ q.wordRank g := by
  have htop : IsTopN q.wordRank (topkSize q) w.groups (topkGroups q order w) :=
    isTopN_topkGroups w
  obtain ⟨rest, hperm, hlen, hle⟩ := htop
  have hrest : g ∈ rest := by
    rcases List.mem_append.mp (hperm.mem_iff.mpr hg) with hlisted | hrest
    · exact absurd (List.mem_map_of_mem hlisted) hout
    · exact hrest
  have htotal := hperm.length_eq
  have hpos := List.length_pos_of_mem hrest
  rw [List.length_append] at htotal
  exact ⟨by omega, fun g' hg' => hle g' hg' g hrest⟩

theorem topkSize_pos : 0 < topkSize q := by
  unfold topkSize
  omega

theorem topkFloor_cases (order : HashOrder q.Group) (w : PartialResult q) :
    topkFloor q order w = 0 ∨
      ∃ g ∈ topkGroups q order w, topkFloor q order w = q.sortWord g.2 := by
  unfold topkFloor
  split
  · exact Or.inl rfl
  · split
    · rename_i worst hworst
      exact Or.inr ⟨worst, List.argmax_mem hworst, rfl⟩
    · exact Or.inl rfl

/-- A group a worker left out does not pass its floor. -/
theorem floor_le_of_unlisted {w : PartialResult q} {g : q.Group} (hg : g ∈ w.groups)
    (hout : g.1 ∉ (topk q order w).1) : q.turned (topk q order w).2 ≤ q.wordRank g := by
  obtain ⟨hlen, hle⟩ := listed_before hg hout
  show q.turned (topkFloor q order w) ≤ q.wordRank g
  unfold topkFloor
  split
  · -- The worker lists all its groups, this one among them.
    rename_i hall
    have hlisted : g.1 ∈ (topk q order w).1 := by
      apply List.mem_map_of_mem
      rw [topkGroups, if_pos hall]
      exact (order.perm w.groups).mem_iff.mpr hg
    exact absurd hlisted hout
  · cases hworst : (topkGroups q order w).argmax q.entryRank with
    | none =>
        rw [List.argmax_eq_none.mp hworst, List.length_nil] at hlen
        exact absurd hlen (Nat.not_le.mpr topkSize_pos)
    | some worst => exact hle worst (List.argmax_mem hworst)

end lists

/-! ## Sums over the workers -/

section sums

variable {q : TopNQuery} {order : HashOrder q.Group} {workers : List (PartialResult q)}

theorem saturatingAdd_of_inWords {a b : ℤ}
    (h : -9223372036854775808 ≤ a + b ∧ a + b ≤ 9223372036854775807) :
    saturatingAdd a b = a + b := by
  unfold saturatingAdd
  omega

/-- The running sums of words, however many were added, are words. -/
def RunningInWords (vs : List ℤ) : Prop :=
  ∀ n, -9223372036854775808 ≤ (vs.take n).sum ∧ (vs.take n).sum ≤ 9223372036854775807

theorem foldl_saturatingAdd {vs : List ℤ} (h : RunningInWords vs) :
    vs.foldl saturatingAdd 0 = vs.sum := by
  have hfrom : ∀ (vs : List ℤ) (a : ℤ),
      (∀ n, -9223372036854775808 ≤ a + (vs.take n).sum ∧
        a + (vs.take n).sum ≤ 9223372036854775807) →
      vs.foldl saturatingAdd a = a + vs.sum := by
    intro vs
    induction vs with
    | nil => simp
    | cons v vs ih =>
        intro a hrange
        have hfirst := hrange 1
        rw [List.take_succ_cons, List.take_zero, List.sum_singleton] at hfirst
        have hrest : ∀ n, -9223372036854775808 ≤ a + v + (vs.take n).sum ∧
            a + v + (vs.take n).sum ≤ 9223372036854775807 := by
          intro n
          have hn := hrange (n + 1)
          rwa [List.take_succ_cons, List.sum_cons, ← add_assoc] at hn
        rw [List.foldl_cons, saturatingAdd_of_inWords hfirst, ih _ hrest, List.sum_cons, add_assoc]
  simpa using hfrom vs 0 (by simpa [RunningInWords] using h)

/-- Words that are not negative stay within 64 bits when their sum does. -/
theorem runningInWords_of_nonneg {vs : List ℤ} (hnonneg : ∀ v ∈ vs, 0 ≤ v)
    (hsum : vs.sum ≤ 9223372036854775807) : RunningInWords vs := by
  intro n
  have hfirst : 0 ≤ (vs.take n).sum :=
    List.sum_nonneg fun v hv => hnonneg v (List.mem_of_mem_take hv)
  have hrest : 0 ≤ (vs.drop n).sum :=
    List.sum_nonneg fun v hv => hnonneg v (List.mem_of_mem_drop hv)
  have hsplit := List.sum_take_add_sum_drop vs n
  omega

variable (workers) in
def heldBy (k : BitVec 128) : List (Accs q.aggSpecs) :=
  contributions k (workers.map fun w => w.groups)

theorem total_eq_foldl (k : BitVec 128) :
    total q workers k = ((heldBy workers k).map q.sortWord).foldl saturatingAdd 0 := by
  have hfold : ∀ sum : ℤ,
      workers.foldl (fun sum w =>
        match valueAt k w.groups with
        | none => sum
        | some accs => saturatingAdd sum (q.sortWord accs)) sum =
        ((heldBy workers k).map q.sortWord).foldl saturatingAdd sum := by
    induction workers with
    | nil => simp [heldBy, contributions]
    | cons w workers ih =>
        intro sum
        rw [List.foldl_cons, ih, heldBy, heldBy, List.map_cons, contributions_cons]
        cases valueAt k w.groups <;> simp
  exact hfold 0

/-- The sort word of a key in a worker's map, 0 where the worker has none. -/
def wordAt (k : BitVec 128) (w : PartialResult q) : ℤ :=
  match valueAt k w.groups with
  | none => 0
  | some accs => q.sortWord accs

/-- A worker that lacks a key adds nothing. -/
theorem total_of_runningInWords {k : BitVec 128} (h : RunningInWords (workers.map (wordAt k))) :
    total q workers k = (workers.map (wordAt k)).sum := by
  have hfrom : ∀ (workers : List (PartialResult q)) (a : ℤ),
      (∀ n, -9223372036854775808 ≤ a + ((workers.map (wordAt k)).take n).sum ∧
        a + ((workers.map (wordAt k)).take n).sum ≤ 9223372036854775807) →
      workers.foldl (fun sum w =>
        match valueAt k w.groups with
        | none => sum
        | some accs => saturatingAdd sum (q.sortWord accs)) a =
        (workers.map (wordAt k)).foldl saturatingAdd a := by
    intro workers
    induction workers with
    | nil => simp
    | cons w workers ih =>
        intro a hrange
        have hstart := hrange 0
        have hfirst := hrange 1
        simp only [List.map_cons, List.take_succ_cons, List.take_zero, List.sum_singleton,
          List.sum_nil, add_zero] at hstart hfirst
        have hrest : ∀ n, -9223372036854775808 ≤ a + wordAt k w +
            ((workers.map (wordAt k)).take n).sum ∧
            a + wordAt k w + ((workers.map (wordAt k)).take n).sum ≤ 9223372036854775807 := by
          intro n
          have hn := hrange (n + 1)
          rwa [List.map_cons, List.take_succ_cons, List.sum_cons, ← add_assoc] at hn
        rw [List.map_cons, List.foldl_cons, List.foldl_cons, ← ih _ (by
          rwa [saturatingAdd_of_inWords hfirst])]
        congr 1
        cases hw : valueAt k w.groups with
        | none => simp [wordAt, hw, saturatingAdd_of_inWords (a := a) (b := 0) (by simpa using hstart)]
        | some accs => simp [wordAt, hw]
  rw [total, hfrom workers 0 (by simpa [RunningInWords] using h), foldl_saturatingAdd h]

theorem mergeKey_eq_sum_heldBy (k : BitVec 128) :
    mergeKey k (workers.map PartialResult.toWorkerMap) = (heldBy workers k).sum := by
  rw [mergeKey_eq_sum, heldBy, List.map_map, Function.comp_def]

theorem sum_heldBy (workers : List (PartialResult q)) (f : ℤ → ℤ) (hzero : f 0 = 0) (k : BitVec 128) :
    ((heldBy workers k).map fun accs => f (q.sortWord accs)).sum =
      (workers.map fun w => f (wordAt k w)).sum := by
  induction workers with
  | nil => simp [heldBy, contributions]
  | cons w workers ih =>
      rw [heldBy, List.map_cons, contributions_cons, List.map_cons, List.sum_cons, ← ih]
      cases hw : valueAt k w.groups with
      | none =>
          simp only [wordAt, hw, hzero, zero_add]
          rfl
      | some accs =>
          simp only [wordAt, hw]
          rfl

end sums

/-! ## When the answer can be trusted -/

namespace TopNQuery

variable (q : TopNQuery)

/-- As many groups as are asked for, each merged over all workers, and no other
group sorts strictly before one of them. -/
structure SoundTopN (all groups : List q.Group) : Prop where
  length_eq : groups.length = q.topnLimit
  nodup : (keys groups).Nodup
  merged : ∀ g ∈ groups, g ∈ all
  before : ∀ g ∈ groups, ∀ g' ∈ all, g' ∉ groups → ¬ q.sortRank g' < q.sortRank g

/-- What speculation returns, if anything, is a valid answer. -/
def SpeculationSound (order : HashOrder q.Group) (ties : HashOrder (ℤ × BitVec 128))
    (workers : List (PartialResult q)) : Prop :=
  ∀ groups, compactSpeculativeTopn q order workers ties = some groups →
    q.SoundTopN (compactFullMerge (workers.map PartialResult.toWorkerMap)) groups

/-- The sort value of a group is the sum of the workers' values. -/
def Additive : Prop := q.sortSpec.kind = .count ∨ q.sortSpec.kind = .sumIntNarrow

section inputs

variable (order : HashOrder q.Group) (workers : List (PartialResult q))

/-- No key is held by two workers. -/
def Exclusive : Prop :=
  workers.Pairwise fun w w' => ∀ k ∈ keys w.groups, k ∉ keys w'.groups

def Listed (k : BitVec 128) : Prop := ∃ w ∈ workers, k ∈ (topk q order w).1

/-- The sort words of every listed key, added over the workers, stay within 64 bits. -/
def TotalsInWords : Prop := ∀ k, q.Listed order workers k → RunningInWords (workers.map (wordAt k))

/-- The floors, added over the workers, stay within 64 bits. -/
def FloorsInWords : Prop := RunningInWords (workers.map fun w => (topk q order w).2)

def AllListed : Prop := ∀ w ∈ workers, ∀ k ∈ keys w.groups, q.Listed order workers k

/-- A worker without a key that no worker lists does not have its floor on the
far side of zero. -/
def FloorsBound : Prop :=
  ∀ w ∈ workers, ∀ k ∈ keys w.groups, ¬ q.Listed order workers k →
    ∀ w' ∈ workers, k ∉ keys w'.groups → q.turned (topk q order w').2 ≤ 0

/-- The number of listed keys whose values, added over the workers, come strictly
before a bound. -/
def listedBefore (bound : ℤ) : ℕ :=
  (candidateSet q order workers).countP fun k =>
    decide (q.turned (workers.map (wordAt k)).sum < bound)

/-- Enough listed keys come no later than the sum of the floors. -/
def ReachFloors : Prop :=
  q.topnLimit ≤
    q.listedBefore order workers (q.turned (workers.map fun w => (topk q order w).2).sum + 1)

/-- Not enough listed keys come strictly before the sum of the floors. -/
def MissFloors : Prop :=
  q.listedBefore order workers (q.turned (workers.map fun w => (topk q order w).2).sum) <
    q.topnLimit

/-- Some, but not enough, listed keys come strictly before a bound, so that the
first ones do not all tie. -/
def Spread : Prop :=
  ∃ bound : ℤ, 0 < q.listedBefore order workers bound ∧
    q.listedBefore order workers bound < q.topnLimit

/-- The sort aggregate is none that speculates, or there are too many keys to add up, or
too few for an answer. -/
def NotTried : Prop :=
  q.speculates = false ∨ 10000000 < (candidateSet q order workers).length * workers.length ∨
    (candidateSet q order workers).length < q.topnLimit

structure Undecided : Prop where
  additive : q.Additive
  totals : q.TotalsInWords order workers
  floors : q.FloorsInWords order workers
  miss : q.MissFloors order workers
  spread : q.Spread order workers

/-- The keys that no worker lists are bounded by the floors, and the answer does not rest
on a tie beyond them. -/
structure FloorsDecide : Prop where
  floors : q.FloorsInWords order workers
  bound : q.FloorsBound order workers
  test : q.ReachFloors order workers ∨ q.Spread order workers

/-- No key is in two workers, or the values add over the workers and the keys that no
worker lists are none, or are bounded. -/
def Bounded : Prop :=
  q.Exclusive workers ∨
    (q.Additive ∧ q.TotalsInWords order workers ∧
      (q.AllListed order workers ∨ q.FloorsDecide order workers))

/-- Nothing is returned, or no sort value is NULL and the groups are bounded. -/
def Speculable : Prop :=
  q.NotTried order workers ∨ q.Undecided order workers ∨
    ((∀ g ∈ compactFullMerge (workers.map PartialResult.toWorkerMap), q.sortValue g ≠ none) ∧
      q.Bounded order workers)

end inputs

end TopNQuery

/-! ### Totals -/

section totals

variable {q : TopNQuery} {order : HashOrder q.Group} {workers : List (PartialResult q)}

theorem readWord_add {k : CompactAccKind} (hk : k = .count ∨ k = .sumIntNarrow) (a b : Acc k) :
    readWord k (a + b) = readWord k a + readWord k b := by
  rcases hk with rfl | rfl
  · exact Nat.cast_add (R := ℤ) a b
  · rfl

theorem readWord_zero {k : CompactAccKind} : readWord k 0 = 0 := by
  cases k <;> rfl

theorem sortWord_sum (hadd : q.Additive) (held : List (Accs q.aggSpecs)) :
    q.sortWord held.sum = (held.map q.sortWord).sum := by
  induction held with
  | nil => exact readWord_zero
  | cons accs held ih =>
      rw [List.sum_cons, List.map_cons, List.sum_cons, ← ih]
      exact readWord_add hadd _ _

theorem sortWord_of_additive (hadd : q.Additive) (k : BitVec 128) :
    q.sortWord (mergeKey k (workers.map PartialResult.toWorkerMap)) =
      (workers.map (wordAt k)).sum := by
  rw [mergeKey_eq_sum_heldBy, sortWord_sum hadd]
  exact sum_heldBy workers (fun v => v) rfl k

theorem total_of_additive (hadd : q.Additive) (hwords : q.TotalsInWords order workers)
    {k : BitVec 128} (hk : q.Listed order workers k) :
    total q workers k = q.sortWord (mergeKey k (workers.map PartialResult.toWorkerMap)) := by
  rw [total_of_runningInWords (hwords k hk), sortWord_of_additive hadd]

theorem floorSum_eq_sum (hwords : q.FloorsInWords order workers) :
    floorSum q order workers = (workers.map fun w => (topk q order w).2).sum := by
  have hfold : floorSum q order workers =
      (workers.map fun w => (topk q order w).2).foldl saturatingAdd 0 := by
    rw [List.foldl_map]
    rfl
  rw [hfold, foldl_saturatingAdd hwords]

theorem heldBy_of_exclusive (hexcl : q.Exclusive workers) {w : PartialResult q}
    (hw : w ∈ workers) {g : q.Group} (hg : g ∈ w.groups) : heldBy workers g.1 = [g.2] := by
  induction workers with
  | nil => cases hw
  | cons first others ih =>
      rw [TopNQuery.Exclusive, List.pairwise_cons] at hexcl
      rw [heldBy, List.map_cons, contributions_cons]
      rcases List.mem_cons.mp hw with rfl | hw
      · have hothers : contributions g.1 (others.map fun w => w.groups) = [] := by
          rw [contributions_eq_nil_iff]
          intro m hm
          obtain ⟨w', hw', rfl⟩ := List.mem_map.mp hm
          exact hexcl.1 w' hw' g.1 (List.mem_map_of_mem hg)
        rw [valueAt_of_mem w.nodup hg, hothers]
        rfl
      · have hfirst : valueAt g.1 first.groups = none := by
          rw [valueAt_eq_none_iff]
          intro hmem
          exact hexcl.1 w hw g.1 hmem (List.mem_map_of_mem hg)
        rw [hfirst]
        exact ih hexcl.2 hw

theorem total_of_exclusive (hexcl : q.Exclusive workers) {w : PartialResult q}
    (hw : w ∈ workers) {g : q.Group} (hg : g ∈ w.groups) :
    total q workers g.1 = q.sortWord (mergeKey g.1 (workers.map PartialResult.toWorkerMap)) := by
  have hword := w.words g hg
  rw [total_eq_foldl, mergeKey_eq_sum_heldBy, heldBy_of_exclusive hexcl hw hg]
  simp only [List.map_cons, List.map_nil, List.foldl_cons, List.foldl_nil, List.sum_singleton]
  unfold saturatingAdd
  omega

theorem mergeKey_of_exclusive (hexcl : q.Exclusive workers) {w : PartialResult q}
    (hw : w ∈ workers) {g : q.Group} (hg : g ∈ w.groups) :
    mergeKey g.1 (workers.map PartialResult.toWorkerMap) = g.2 := by
  rw [mergeKey_eq_sum_heldBy, heldBy_of_exclusive hexcl hw hg, List.sum_singleton]

end totals

/-! ### Candidates and missing keys -/

section candidates

variable {q : TopNQuery} {order : HashOrder q.Group} {ties : HashOrder (ℤ × BitVec 128)}
  {workers : List (PartialResult q)}

variable (q order workers) in
def candidateGroups : List q.Group :=
  (candidateSet q order workers).map fun k =>
    (k, mergeKey k (workers.map PartialResult.toWorkerMap))

variable (q order workers) in
def missingGroups : List q.Group :=
  (compactFullMerge (workers.map PartialResult.toWorkerMap)).filter fun g =>
    decide (g.1 ∉ candidateSet q order workers)

theorem mem_candidateSet {k : BitVec 128} :
    k ∈ candidateSet q order workers ↔ q.Listed order workers k := by
  simp [candidateSet, TopNQuery.Listed]

theorem mem_groupKeys_emitted {k : BitVec 128} :
    k ∈ groupKeys (workers.map PartialResult.toWorkerMap) ↔
      ∃ w ∈ workers, k ∈ keys w.groups := by
  simp [mem_groupKeys]

theorem candidates_append_missing_perm :
    (candidateGroups q order workers ++ missingGroups q order workers).Perm
      (compactFullMerge (workers.map PartialResult.toWorkerMap)) := by
  have hfull := (nodup_keys_compactFullMerge (workers.map PartialResult.toWorkerMap)).of_map
  have hcandidates : (candidateGroups q order workers).Nodup :=
    (List.nodup_dedup _).map fun k k' heq => congrArg Prod.fst heq
  have hdisjoint : (candidateGroups q order workers).Disjoint (missingGroups q order workers) := by
    intro g hg hg'
    obtain ⟨k, hk, rfl⟩ := List.mem_map.mp hg
    exact of_decide_eq_true (List.mem_filter.mp hg').2 hk
  apply (List.perm_ext_iff_of_nodup
    (hcandidates.append (hfull.filter _) hdisjoint) hfull).mpr
  intro g
  rw [List.mem_append, List.mem_filter, decide_eq_true_eq, mem_compactFullMerge]
  constructor
  · rintro (hg | hg)
    · obtain ⟨k, hk, rfl⟩ := List.mem_map.mp hg
      obtain ⟨w, hw, hlisted⟩ := mem_candidateSet.mp hk
      exact ⟨mem_groupKeys_emitted.mpr ⟨w, hw, mem_keys_of_listed hlisted⟩, rfl⟩
    · exact hg.1
  · intro hg
    by_cases hk : g.1 ∈ candidateSet q order workers
    · exact Or.inl (List.mem_map.mpr ⟨g.1, hk, Prod.ext rfl hg.2⟩)
    · exact Or.inr ⟨hg, hk⟩

variable (q order workers) in
def candidateEntries : List (ℤ × BitVec 128) :=
  (candidateSet q order workers).map fun k => (total q workers k, k)

theorem isTopN_mergedCandidates :
    IsTopN (fun e => q.turned e.1) q.topnLimit (candidateEntries q order workers)
      (mergedCandidates q order workers ties) := by
  have htake : IsTopN (fun e => q.turned e.1) q.topnLimit _
      (mergedCandidates q order workers ties) :=
    isTopN_take (pairwise_mergeSort_rank (fun e : ℤ × BitVec 128 => q.turned e.1) _)
  exact htake.perm ((List.mergeSort_perm _ _).trans (ties.perm _)) (List.Perm.refl _)

variable (q workers) in
def entryGroup (e : ℤ × BitVec 128) : q.Group :=
  (e.2, mergeKey e.2 (workers.map PartialResult.toWorkerMap))

theorem isTopN_candidateGroups
    (htotal : ∀ k ∈ candidateSet q order workers,
      total q workers k = q.sortWord (mergeKey k (workers.map PartialResult.toWorkerMap))) :
    IsTopN q.wordRank q.topnLimit (candidateGroups q order workers)
      ((mergedCandidates q order workers ties).map (entryGroup q workers)) := by
  have hentries : (candidateEntries q order workers).map (entryGroup q workers) =
      candidateGroups q order workers := by
    rw [candidateEntries, List.map_map]
    rfl
  rw [← hentries]
  apply isTopN_mergedCandidates.map
  intro e he
  obtain ⟨k, hk, rfl⟩ := List.mem_map.mp he
  show q.turned _ = q.turned _
  rw [htotal k hk]
  rfl

/-- What returned groups come from. -/
theorem speculation_cases {groups : List q.Group}
    (h : compactSpeculativeTopn q order workers ties = some groups) :
    q.speculates = true ∧
      (mergedCandidates q order workers ties).length = q.topnLimit ∧
      (speculativeOk q order workers (mergedCandidates q order workers ties) = true ∨
        allTied q (mergedCandidates q order workers ties) = true) ∧
      groups = (mergedCandidates q order workers ties).map (entryGroup q workers) := by
  unfold compactSpeculativeTopn at h
  split at h
  · cases h
  · rename_i hspec
    split at h
    · cases h
    · simp only at h
      split at h
      · rename_i hexit
        have hle : (mergedCandidates q order workers ties).length ≤ q.topnLimit :=
          List.length_take_le _ _
        have hpos := q.limit_pos
        have hlen : (mergedCandidates q order workers ties).length = q.topnLimit := by
          -- Both exits read the last of `limit` entries.
          by_contra hne
          have hnone : (mergedCandidates q order workers ties)[q.topnLimit - 1]? = none := by
            rw [List.getElem?_eq_none_iff]
            omega
          simp [speculativeOk, allTied, hnone] at hexit
        exact ⟨by simpa using hspec, hlen, by simpa using hexit, (Option.some.inj h).symm⟩
      · cases h

theorem valRank_eq_wordRank (hspec : q.speculates = true) (g : q.Group) :
    q.valRank g = (q.wordRank g : ℚ) := by
  simp only [TopNQuery.speculates, Bool.and_eq_true, bne_iff_ne] at hspec
  have hword : q.sortVal g = (q.sortWord g.2 : ℚ) :=
    readSortVal_eq_readWord q.admitted hspec.1 hspec.2 _
  unfold TopNQuery.valRank TopNQuery.wordRank TopNQuery.turned
  rw [hword]
  split
  · rfl
  · push_cast
    rfl

/-- Where no sort value is NULL, first groups by sort word are a valid answer. -/
theorem soundTopN_of_isTopN (hspec : q.speculates = true) {all groups : List q.Group}
    (hnodup : (keys all).Nodup) (hnull : ∀ g ∈ all, q.sortValue g ≠ none)
    (hlen : groups.length = q.topnLimit) (htop : IsTopN q.wordRank q.topnLimit all groups) :
    q.SoundTopN all groups := by
  have havg : ¬ q.AvgBigint := by
    intro h
    simp [TopNQuery.speculates, h.1] at hspec
  have hmono : ∀ g ∈ all, ∀ g' ∈ all, q.wordRank g ≤ q.wordRank g' →
      q.sortRank g ≤ q.sortRank g' := by
    intro g hg g' hg' hle
    apply TopNQuery.sortRank_le_of_valRank_le havg (hnull g hg) (hnull g' hg')
    rw [valRank_eq_wordRank hspec, valRank_eq_wordRank hspec]
    exact_mod_cast hle
  obtain ⟨rest, hperm, -, hle⟩ := htop.of_le hmono
  refine ⟨hlen, ?_, ?_, ?_⟩
  · have hkeys : (keys (groups ++ rest)).Nodup := (hperm.map Prod.fst).nodup_iff.mpr hnodup
    rw [keys, List.map_append] at hkeys
    exact hkeys.of_append_left
  · intro g hg
    exact hperm.subset (List.mem_append_left rest hg)
  · intro g hg g' hg' hout
    rcases List.mem_append.mp (hperm.mem_iff.mpr hg') with hmem | hmem
    · exact absurd hmem hout
    · exact not_lt.mpr (hle g hg g' hmem)

/-! ### The exits -/

/-- The entries kept are sorted, so those before a bound are counted off. -/
theorem turned_getElem_lt_iff {i : ℕ} (hi : i < (mergedCandidates q order workers ties).length)
    (bound : ℤ) :
    q.turned (mergedCandidates q order workers ties)[i].1 < bound ↔
      i < (candidateEntries q order workers).countP fun e => decide (q.turned e.1 < bound) := by
  have hsorted := pairwise_mergeSort_rank (fun e : ℤ × BitVec 128 => q.turned e.1)
    (ties.reorder (candidateEntries q order workers))
  have hperm := (List.mergeSort_perm (ties.reorder (candidateEntries q order workers))
    fun e e' => decide (q.turned e.1 ≤ q.turned e'.1)).trans (ties.perm _)
  have htake : (mergedCandidates q order workers ties) =
      ((ties.reorder (candidateEntries q order workers)).mergeSort
        fun e e' => decide (q.turned e.1 ≤ q.turned e'.1)).take q.topnLimit := rfl
  have hlt : i < ((ties.reorder (candidateEntries q order workers)).mergeSort
      fun e e' => decide (q.turned e.1 ≤ q.turned e'.1)).length := by
    rw [htake, List.length_take] at hi
    omega
  have hget : (mergedCandidates q order workers ties)[i] =
      ((ties.reorder (candidateEntries q order workers)).mergeSort
        fun e e' => decide (q.turned e.1 ≤ q.turned e'.1))[i] := List.getElem_take
  rw [hget, getElem_lt_iff hsorted hlt, hperm.countP_eq]

theorem countP_candidateEntries (hwords : q.TotalsInWords order workers) (bound : ℤ) :
    ((candidateEntries q order workers).countP fun e => decide (q.turned e.1 < bound)) =
      q.listedBefore order workers bound := by
  rw [candidateEntries, List.countP_map, TopNQuery.listedBefore]
  apply List.countP_congr
  intro k hk
  simp only [Function.comp_apply, total_of_runningInWords (hwords k (mem_candidateSet.mp hk))]

/-- With enough listed keys no later than the floors, so are the entries kept. -/
theorem turned_le_of_reachFloors (hwords : q.TotalsInWords order workers)
    (hfloors : q.FloorsInWords order workers) (hreach : q.ReachFloors order workers)
    {e : ℤ × BitVec 128} (he : e ∈ mergedCandidates q order workers ties) :
    q.turned e.1 ≤ q.turned (floorSum q order workers) := by
  obtain ⟨i, hi, rfl⟩ := List.getElem_of_mem he
  have hlen : (mergedCandidates q order workers ties).length ≤ q.topnLimit :=
    List.length_take_le _ _
  rw [floorSum_eq_sum hfloors]
  apply Int.le_of_lt_add_one
  rw [turned_getElem_lt_iff hi, countP_candidateEntries hwords]
  exact (hi.trans_le hlen).trans_le hreach

theorem speculativeOk_of_missFloors (hwords : q.TotalsInWords order workers)
    (hfloors : q.FloorsInWords order workers)
    (hlen : (mergedCandidates q order workers ties).length = q.topnLimit)
    (hmiss : q.MissFloors order workers) :
    speculativeOk q order workers (mergedCandidates q order workers ties) = false := by
  have hpos := q.limit_pos
  have hlast : q.topnLimit - 1 < (mergedCandidates q order workers ties).length := by
    rw [hlen, TopNQuery.topnLimit]
    omega
  rw [speculativeOk, List.getElem?_eq_getElem hlast]
  apply decide_eq_false
  rw [turned_getElem_lt_iff hlast, countP_candidateEntries hwords, floorSum_eq_sum hfloors]
  unfold TopNQuery.MissFloors at hmiss
  rw [hlen] at hlast
  omega

theorem allTied_of_spread (hwords : q.TotalsInWords order workers)
    (hlen : (mergedCandidates q order workers ties).length = q.topnLimit)
    (hspread : q.Spread order workers) :
    allTied q (mergedCandidates q order workers ties) = false := by
  obtain ⟨bound, hsome, hfew⟩ := hspread
  have hlast : q.topnLimit - 1 < (mergedCandidates q order workers ties).length := by omega
  have hfirst : 0 < (mergedCandidates q order workers ties).length := by omega
  rw [allTied, List.getElem?_eq_getElem hlast]
  by_contra htied
  rw [Bool.not_eq_false, List.all_eq_true] at htied
  have heq := of_decide_eq_true (htied _ (List.getElem_mem hfirst))
  have hbefore : q.turned (mergedCandidates q order workers ties)[0].1 < bound := by
    rw [turned_getElem_lt_iff hfirst, countP_candidateEntries hwords]
    exact hsome
  rw [heq, turned_getElem_lt_iff hlast, countP_candidateEntries hwords] at hbefore
  omega

theorem turned_sum (vs : List ℤ) : q.turned vs.sum = (vs.map q.turned).sum := by
  induction vs with
  | nil => simp [TopNQuery.turned]
  | cons v vs ih =>
      rw [List.sum_cons, List.map_cons, List.sum_cons, ← ih]
      unfold TopNQuery.turned
      split
      · rfl
      · omega

theorem exists_of_mem_missingGroups {r : q.Group} (hr : r ∈ missingGroups q order workers) :
    (∃ w ∈ workers, r.1 ∈ keys w.groups) ∧ ¬ q.Listed order workers r.1 ∧
      mergeKey r.1 (workers.map PartialResult.toWorkerMap) = r.2 := by
  rw [missingGroups, List.mem_filter, decide_eq_true_eq, mem_compactFullMerge,
    mem_groupKeys_emitted, mem_candidateSet] at hr
  exact ⟨hr.1.1, hr.2, hr.1.2⟩

theorem floorSum_le_missing (hadd : q.Additive) (hfloors : q.FloorsInWords order workers)
    (hbound : q.FloorsBound order workers) {r : q.Group}
    (hr : r ∈ missingGroups q order workers) :
    q.turned (floorSum q order workers) ≤ q.wordRank r := by
  obtain ⟨⟨holder, hholder, hkey⟩, hout, haccs⟩ := exists_of_mem_missingGroups hr
  have hrank : q.wordRank r = q.turned (workers.map (wordAt r.1)).sum := by
    rw [← sortWord_of_additive hadd, haccs]
    rfl
  rw [hrank, floorSum_eq_sum hfloors, turned_sum, turned_sum, List.map_map, List.map_map]
  apply List.sum_le_sum
  intro w hw
  show q.turned (topk q order w).2 ≤ q.turned (wordAt r.1 w)
  cases hvalue : valueAt r.1 w.groups with
  | none =>
      have hzero : q.turned (wordAt r.1 w) = 0 := by simp [wordAt, hvalue, TopNQuery.turned]
      rw [hzero]
      exact hbound holder hholder r.1 hkey hout w hw (valueAt_eq_none_iff.mp hvalue)
  | some accs =>
      have hword : q.turned (wordAt r.1 w) = q.wordRank (r.1, accs) := by
        simp only [wordAt, hvalue]
        rfl
      rw [hword]
      exact floor_le_of_unlisted (mem_of_valueAt hvalue) fun hlisted => hout ⟨w, hw, hlisted⟩

/-- Past the floor test, every entry kept comes before the sum of the floors. -/
theorem turned_lt_of_speculativeOk
    (hok : speculativeOk q order workers (mergedCandidates q order workers ties) = true)
    (hlen : (mergedCandidates q order workers ties).length = q.topnLimit)
    {e : ℤ × BitVec 128} (he : e ∈ mergedCandidates q order workers ties) :
    q.turned e.1 < q.turned (floorSum q order workers) := by
  have hpos := List.length_pos_of_mem he
  have hlast : q.topnLimit - 1 < (mergedCandidates q order workers ties).length := by omega
  rw [speculativeOk, List.getElem?_eq_getElem hlast] at hok
  have hnth := of_decide_eq_true hok
  obtain ⟨i, hi, rfl⟩ := List.getElem_of_mem he
  rw [turned_getElem_lt_iff hlast] at hnth
  rw [turned_getElem_lt_iff hi]
  omega

/-- Where no key is in two workers, the listed groups cover all. -/
theorem covers_of_exclusive (hexcl : q.Exclusive workers) :
    Covers q.wordRank q.topnLimit (compactFullMerge (workers.map PartialResult.toWorkerMap))
      (candidateGroups q order workers) := by
  refine ⟨missingGroups q order workers, candidates_append_missing_perm, ?_⟩
  intro r hr
  obtain ⟨⟨w, hw, hkey⟩, hout, haccs⟩ := exists_of_mem_missingGroups hr
  obtain ⟨g, hg, hgkey⟩ := List.mem_map.mp hkey
  have hgroup : g = r := by
    apply Prod.ext hgkey
    rw [← haccs, ← hgkey, mergeKey_of_exclusive hexcl hw hg]
  subst hgroup
  obtain ⟨hmany, hbefore⟩ := listed_before hg fun hlisted => hout ⟨w, hw, hlisted⟩
  have htop : IsTopN q.wordRank (topkSize q) w.groups (topkGroups q order w) :=
    isTopN_topkGroups w
  have hnodup : (topkGroups q order w).Nodup := by
    obtain ⟨rest, hperm, -, -⟩ := htop
    exact (hperm.nodup_iff.mpr w.nodup.of_map).of_append_left
  have hsub : topkGroups q order w ⊆ candidateGroups q order workers := by
    intro g' hg'
    have hlisted : q.Listed order workers g'.1 := ⟨w, hw, List.mem_map_of_mem hg'⟩
    exact List.mem_map.mpr ⟨g'.1, mem_candidateSet.mpr hlisted,
      Prod.ext rfl (mergeKey_of_exclusive hexcl hw (htop.subset hg'))⟩
  have hall : (topkGroups q order w).countP (fun g' => decide (q.wordRank g' ≤ q.wordRank g)) =
      (topkGroups q order w).length := by
    rw [List.countP_eq_length]
    intro g' hg'
    exact decide_eq_true (hbefore g' hg')
  calc
    q.topnLimit ≤ topkSize q := le_max_left _ _
    _ ≤ (topkGroups q order w).length := hmany
    _ = (topkGroups q order w).countP fun g' => decide (q.wordRank g' ≤ q.wordRank g) := hall.symm
    _ ≤ (candidateGroups q order workers).countP fun g' =>
        decide (q.wordRank g' ≤ q.wordRank g) := (List.subperm_of_subset hnodup hsub).countP_le _

/-- What speculation returns comes first by sort word where the groups are bounded. -/
theorem isTopN_of_speculation {groups : List q.Group}
    (hgroups : compactSpeculativeTopn q order workers ties = some groups)
    (hbounded : q.Bounded order workers) :
    q.speculates = true ∧ groups.length = q.topnLimit ∧
      IsTopN q.wordRank q.topnLimit
        (compactFullMerge (workers.map PartialResult.toWorkerMap)) groups := by
  obtain ⟨hspec, hlen, hexit, rfl⟩ := speculation_cases hgroups
  have hmapped : ((mergedCandidates q order workers ties).map (entryGroup q workers)).length =
      q.topnLimit := by rw [List.length_map, hlen]
  refine ⟨hspec, hmapped, ?_⟩
  rcases hbounded with hexcl | ⟨hadd, hwords, hrest⟩
  · apply IsTopN.of_covers (covers_of_exclusive hexcl)
    apply isTopN_candidateGroups
    intro k hk
    obtain ⟨w, hw, hlisted⟩ := mem_candidateSet.mp hk
    obtain ⟨g, hg, rfl⟩ := List.mem_map.mp (mem_keys_of_listed hlisted)
    exact total_of_exclusive hexcl hw hg
  · have htotal : ∀ k ∈ candidateSet q order workers,
        total q workers k = q.sortWord (mergeKey k (workers.map PartialResult.toWorkerMap)) :=
      fun k hk => total_of_additive hadd hwords (mem_candidateSet.mp hk)
    have htop : IsTopN q.wordRank q.topnLimit (candidateGroups q order workers)
        ((mergedCandidates q order workers ties).map (entryGroup q workers)) :=
      isTopN_candidateGroups htotal
    apply htop.of_rest hmapped candidates_append_missing_perm
    intro z hz r hr
    obtain ⟨e, he, rfl⟩ := List.mem_map.mp hz
    rcases hrest with hall | hfloors
    · obtain ⟨⟨w, hw, hkey⟩, hout, -⟩ := exists_of_mem_missingGroups hr
      exact absurd (hall w hw r.1 hkey) hout
    · have hle : q.turned e.1 ≤ q.turned (floorSum q order workers) := by
        rcases hfloors.test with hreach | hspread
        · exact turned_le_of_reachFloors hwords hfloors.floors hreach he
        · -- Not all tied, so the other exit was taken.
          rcases hexit with hok | htied
          · exact (turned_lt_of_speculativeOk hok hlen he).le
          · rw [allTied_of_spread hwords hlen hspread] at htied
            cases htied
      have hentry : q.wordRank (entryGroup q workers e) = q.turned e.1 := by
        have hmem := isTopN_mergedCandidates.subset he
        obtain ⟨k, hk, rfl⟩ := List.mem_map.mp hmem
        show q.turned _ = q.turned _
        rw [htotal k hk]
        rfl
      calc
        q.wordRank (entryGroup q workers e) = q.turned e.1 := hentry
        _ ≤ q.turned (floorSum q order workers) := hle
        _ ≤ q.wordRank r := floorSum_le_missing hadd hfloors.floors hfloors.bound hr

theorem speculation_eq_none_of_notTried (h : q.NotTried order workers) :
    compactSpeculativeTopn q order workers ties = none := by
  rcases hresult : compactSpeculativeTopn q order workers ties with - | groups
  · rfl
  · obtain ⟨hspec, hlen, -, -⟩ := speculation_cases hresult
    rcases h with hnot | hmany | hfew
    · rw [hnot] at hspec
      cases hspec
    · rw [compactSpeculativeTopn, hspec, if_neg (by simp), if_pos hmany] at hresult
      cases hresult
    · have hall : IsTopN (fun e => q.turned e.1) q.topnLimit (candidateEntries q order workers)
          (mergedCandidates q order workers ties) := isTopN_mergedCandidates
      have hmany := hall.length_eq
      rw [hlen, candidateEntries, List.length_map] at hmany
      omega

theorem speculation_eq_none_of_undecided (h : q.Undecided order workers) :
    compactSpeculativeTopn q order workers ties = none := by
  rcases hresult : compactSpeculativeTopn q order workers ties with - | groups
  · rfl
  · obtain ⟨-, hlen, hexit, -⟩ := speculation_cases hresult
    rcases hexit with hok | htied
    · rw [speculativeOk_of_missFloors h.totals h.floors hlen h.miss] at hok
      cases hok
    · rw [allTied_of_spread h.totals hlen h.spread] at htied
      cases htied

end candidates

/-- What speculation returns is a valid answer where it returns nothing, or where no
sort value is NULL, and either no key is in two workers, or the sort values add over the
workers and the keys that no worker lists are none, or bounded by the floors while the
answer does not rest on a tie beyond them. -/
theorem speculationSound_of_speculable (q : TopNQuery) (order : HashOrder q.Group)
    (ties : HashOrder (ℤ × BitVec 128)) (workers : List (PartialResult q))
    (h : q.Speculable order workers) : q.SpeculationSound order ties workers := by
  intro groups hgroups
  rcases h with hnot | hundecided | ⟨hnull, hbounded⟩
  · rw [speculation_eq_none_of_notTried hnot] at hgroups
    cases hgroups
  · rw [speculation_eq_none_of_undecided hundecided] at hgroups
    cases hgroups
  · obtain ⟨hspec, hlen, htop⟩ := isTopN_of_speculation hgroups hbounded
    exact soundTopN_of_isTopN hspec (nodup_keys_compactFullMerge _) hnull hlen htop

/-- `SELECT k, COUNT(*) … GROUP BY k ORDER BY COUNT(*) DESC LIMIT 1`. -/
def countTopQuery : TopNQuery where
  aggSpecs := [countStarSpec]
  groupSpecs := [⟨0, .int8, .column⟩]
  outputMap := [.group 0, .agg 0]
  sortSlot := ⟨0, Nat.one_pos⟩
  distinct := none
  distinct_sort := first_sorts_no_distinct
  admitted := rfl
  ascending := false
  nullsFirst := true
  withTies := false
  limit := 1
  offset := 0
  limit_pos := Nat.one_pos
  capped := one_row_capped

/-- Groups 1 and 2, with one row and `n` rows. -/
def countPartial (n : ℕ) (h : n < 100) : PartialResult countTopQuery where
  groups := [(1, fun | ⟨0, _⟩ => (1 : ℕ)), (2, fun | ⟨0, _⟩ => n)]
  nodup := by simp [keys]
  words := by
    have hcount : countTopQuery.sortWord (fun | ⟨0, _⟩ => n) = n := rfl
    have hone : countTopQuery.sortWord (fun | ⟨0, _⟩ => (1 : ℕ)) = 1 := rfl
    intro g hg
    rcases List.mem_pair.mp hg with rfl | rfl
    · rw [hone]
      omega
    · rw [hcount]
      omega

/-- Two workers that share both groups. -/
theorem speculationSound_two_workers :
    countTopQuery.SpeculationSound (HashOrder.asIs _) (HashOrder.asIs _)
      [countPartial 3 (by decide), countPartial 4 (by decide)] := by
  apply speculationSound_of_speculable
  right
  right
  constructor
  · intro g _
    exact TopNQuery.sortValue_ne_none_of_countSort (Or.inl rfl) g
  · right
    refine ⟨Or.inl rfl, ?_, Or.inl ?_⟩
    · intro k _
      have hword : ∀ (n : ℕ) (h : n < 100), 0 ≤ wordAt k (countPartial n h) ∧
          wordAt k (countPartial n h) ≤ 100 := by
        intro n h
        unfold wordAt
        split
        · omega
        · rename_i accs hvalue
          rcases List.mem_pair.mp (mem_of_valueAt hvalue) with heq | heq <;> cases heq
          · show 0 ≤ (1 : ℤ) ∧ (1 : ℤ) ≤ 100
            omega
          · show 0 ≤ (n : ℤ) ∧ (n : ℤ) ≤ 100
            omega
      have hfirst := hword 3 (by decide)
      have hsecond := hword 4 (by decide)
      apply runningInWords_of_nonneg
      · simpa using ⟨hfirst.1, hsecond.1⟩
      · simp only [List.map_cons, List.map_nil, List.sum_cons, List.sum_nil]
        omega
    · intro w hw k hk
      refine ⟨w, hw, ?_⟩
      have hall : (topk countTopQuery (HashOrder.asIs _) w).1 = keys w.groups := by
        rcases List.mem_pair.mp hw with rfl | rfl <;> rfl
      rw [hall]
      exact hk

/-- `SELECT k, MIN(x) … GROUP BY k ORDER BY MIN(x) LIMIT 1`. -/
def minTopQuery : TopNQuery where
  aggSpecs := [⟨⟨.min, 1, .int4, .column, 0, .none⟩, .minInt, rfl⟩]
  groupSpecs := [⟨0, .int8, .column⟩]
  outputMap := [.group 0, .agg 0]
  sortSlot := ⟨0, Nat.one_pos⟩
  distinct := none
  distinct_sort := first_sorts_no_distinct
  admitted := rfl
  ascending := true
  nullsFirst := false
  withTies := false
  limit := 1
  offset := 0
  limit_pos := Nat.one_pos
  capped := one_row_capped

def minGroup (k : BitVec 128) (v : ℤ) : minTopQuery.Group := (k, fun | ⟨0, _⟩ => MinAcc.mk (some v))

/-- A worker whose groups have the minima 1 and 3. -/
def minPartialOne : PartialResult minTopQuery where
  groups := [minGroup 1 1, minGroup 2 3]
  nodup := by simp [keys, minGroup]
  words := by decide

def minPartialTwo : PartialResult minTopQuery where
  groups := [minGroup 1 5]
  nodup := by simp [keys, minGroup]
  words := by decide

/-- The minima 1 and 5 of one group add to 6, so the group with minimum 3 is
returned, tied with itself. -/
theorem not_speculationSound_min :
    ¬ minTopQuery.SpeculationSound (HashOrder.asIs _) (HashOrder.asIs _)
      [minPartialOne, minPartialTwo] := by
  intro h
  have hentries : (HashOrder.asIs (ℤ × BitVec 128)).reorder
      (candidateEntries minTopQuery (HashOrder.asIs _) [minPartialOne, minPartialTwo]) =
      [(3, 2), (6, 1)] := by decide
  have hmerged : mergedCandidates minTopQuery (HashOrder.asIs _) [minPartialOne, minPartialTwo]
      (HashOrder.asIs _) = [(3, 2)] := by
    show (List.mergeSort ((HashOrder.asIs (ℤ × BitVec 128)).reorder
      (candidateEntries minTopQuery (HashOrder.asIs _) [minPartialOne, minPartialTwo])) _).take 1 = _
    rw [hentries, List.mergeSort_of_pairwise (by decide)]
    rfl
  have hreturned : compactSpeculativeTopn minTopQuery (HashOrder.asIs _)
      [minPartialOne, minPartialTwo] (HashOrder.asIs _) = some [minGroup 2 3] := by
    unfold compactSpeculativeTopn
    rw [hmerged]
    decide
  have hbetter : minGroup 1 1 ∈ compactFullMerge
      ([minPartialOne, minPartialTwo].map PartialResult.toWorkerMap) := by decide
  have hbefore : minTopQuery.sortRank (minGroup 1 1) < minTopQuery.sortRank (minGroup 2 3) := by
    apply Prod.Lex.toLex_lt_toLex.mpr
    decide
  exact (h _ hreturned).before _ List.mem_cons_self _ hbetter (by decide) hbefore

end DeltaX.Agg
