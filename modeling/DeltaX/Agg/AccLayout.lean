import DeltaX.Agg.Accumulators
import DeltaX.Support.Placement
import Mathlib.Data.List.Pairwise
import Mathlib.Data.List.Sort
/-!
# Layout of compact accumulators

A group's accumulators lie in one block of bytes.  The slots are placed in the order of
their alignment, so that little is lost to padding, and found by the aggregate's index.
-/

namespace DeltaX.Agg.AccLayout

open Column Support.Placement

/-! ## Kinds of slots -/

/-- `CompactAccKind`, with the slots of strings. -/
inductive SlotKind
  | count
  | sumInt | sumIntNarrow | sumFloat
  | minStr | maxStr
  | countDistinctInt | countDistinctStr
  | minInt | maxInt
deriving DecidableEq, Repr

namespace SlotKind

def wireTag : SlotKind → UInt8
  | count => 0
  | sumInt => 1
  | sumIntNarrow => 2
  | sumFloat => 3
  | minStr => 4
  | maxStr => 5
  | countDistinctInt => 6
  | countDistinctStr => 7
  | minInt => 8
  | maxInt => 9

def byteSize : SlotKind → ℕ
  | count | countDistinctInt | countDistinctStr => 8
  | sumInt => 24
  | sumIntNarrow | sumFloat => 16
  | minStr | maxStr => 8
  | minInt | maxInt => 16

def alignment : SlotKind → ℕ
  | count | countDistinctInt | countDistinctStr => 8
  | sumInt => 16
  | sumIntNarrow | sumFloat => 8
  | minStr | maxStr => 4
  | minInt | maxInt => 8

theorem alignment_pos (k : SlotKind) : 0 < k.alignment := by
  cases k <;> decide

end SlotKind

/-- The slots of the compact workers are among the kinds of slots. -/
def ofCompact : CompactAccKind → SlotKind
  | .count => .count
  | .sumInt => .sumInt
  | .sumIntNarrow => .sumIntNarrow
  | .sumFloat => .sumFloat
  | .minInt => .minInt
  | .maxInt => .maxInt
  | .countDistinctInt => .countDistinctInt

def extremeKind (ofStr ofInt : SlotKind) : TypeOid → Option SlotKind
  | .text | .varchar | .bpchar => some ofStr
  | .int2 | .int4 | .int8 | .date | .timestamp | .timestamptz => some ofInt
  | _ => none

/-- `compact_acc_kind`; `none` is its `unreachable!`. -/
def slotKind (spec : AggExecSpec) : Option SlotKind :=
  match spec.aggType with
  | .countStar | .count => some .count
  | .sum | .avg =>
      match spec.colTypeOid with
      | .float4 | .float8 => some .sumFloat
      | .int2 | .int4 => some .sumIntNarrow
      | _ => some .sumInt
  | .min => extremeKind .minStr .minInt spec.colTypeOid
  | .max => extremeKind .maxStr .maxInt spec.colTypeOid
  | .countDistinct =>
      match spec.colTypeOid with
      | .text | .varchar | .bpchar => some .countDistinctStr
      | _ => some .countDistinctInt

theorem slotKind_of_compactAccKind {spec : AggExecSpec} {k : CompactAccKind}
    (h : compactAccKind spec = some k) : slotKind spec = some (ofCompact k) := by
  unfold compactAccKind at h
  unfold slotKind extremeKind
  split at h <;> (try split at h) <;> cases h <;> simp_all [ofCompact]

structure AccSpec extends AggExecSpec where
  kind : SlotKind
  kind_eq : slotKind toAggExecSpec = some kind
deriving DecidableEq

/-! ## The layout -/

structure CompactAccLayout where
  slots : List (ℕ × SlotKind)
  groupStride : ℕ
deriving DecidableEq

def byAlignment (specs : List AccSpec) : List (ℕ × SlotKind) :=
  ((specs.map AccSpec.kind).zipIdx.map fun e => (e.2, e.1)).insertionSort
    fun a b => b.2.alignment ≤ a.2.alignment

def placed (specs : List AccSpec) : List (ℕ × ℕ × SlotKind) :=
  place (fun e => e.2.alignment) (fun e => e.2.byteSize) 0 (byAlignment specs)

def CompactAccLayout.new (specs : List AccSpec) : CompactAccLayout where
  slots := scatter (List.replicate specs.length (0, .count))
    ((placed specs).map fun p => (p.2.1, p.1, p.2.2))
  groupStride :=
    alignUp (placeEnd (fun e => e.2.alignment) (fun e => e.2.byteSize) 0 (byAlignment specs)) 16

/-- The bytes of two slots do not meet. -/
def Apart (a b : ℕ × SlotKind) : Prop := a.1 + a.2.byteSize ≤ b.1 ∨ b.1 + b.2.byteSize ≤ a.1

theorem Apart.symm {a b : ℕ × SlotKind} (h : Apart a b) : Apart b a := Or.symm h

theorem byAlignment_perm (specs : List AccSpec) :
    (byAlignment specs).Perm ((specs.map AccSpec.kind).zipIdx.map fun e => (e.2, e.1)) :=
  List.perm_insertionSort _ _

theorem map_fst_byAlignment_perm (specs : List AccSpec) :
    ((byAlignment specs).map Prod.fst).Perm (List.range specs.length) := by
  have hperm := (byAlignment_perm specs).map Prod.fst
  rw [List.map_map] at hperm
  have hidx : ((specs.map AccSpec.kind).zipIdx.map
      (Prod.fst ∘ fun e : SlotKind × ℕ => (e.2, e.1))) = List.range specs.length := by
    calc ((specs.map AccSpec.kind).zipIdx.map (Prod.fst ∘ fun e : SlotKind × ℕ => (e.2, e.1)))
        = (specs.map AccSpec.kind).zipIdx.map Prod.snd := rfl
      _ = List.range' 0 (specs.map AccSpec.kind).length := List.zipIdx_map_snd 0 _
      _ = List.range specs.length := by rw [List.length_map, List.range_eq_range']
  rwa [hidx] at hperm

/-- The entries `new` writes, by the index they are written at. -/
theorem map_fst_placed (specs : List AccSpec) :
    ((placed specs).map fun p => (p.2.1, p.1, p.2.2)).map Prod.fst =
      (byAlignment specs).map Prod.fst := by
  rw [List.map_map]
  calc (placed specs).map (Prod.fst ∘ fun p => (p.2.1, p.1, p.2.2))
      = ((placed specs).map Prod.snd).map Prod.fst := by
        rw [List.map_map]
        rfl
    _ = (byAlignment specs).map Prod.fst := by rw [placed, map_snd_place]

theorem length_slots (specs : List AccSpec) :
    (CompactAccLayout.new specs).slots.length = specs.length := by
  rw [CompactAccLayout.new, length_scatter, List.length_replicate]

/-- Every index of an aggregate has a place. -/
theorem exists_placed {specs : List AccSpec} {i : ℕ} (hi : i < specs.length) :
    ∃ p ∈ placed specs, p.2.1 = i := by
  have hmem : i ∈ (byAlignment specs).map Prod.fst :=
    (map_fst_byAlignment_perm specs).mem_iff.mpr (List.mem_range.mpr hi)
  rw [← map_snd_place (fun e => e.2.alignment) (fun e => e.2.byteSize) 0 (byAlignment specs),
    List.map_map, List.mem_map] at hmem
  exact hmem

theorem slots_of_placed {specs : List AccSpec} {p : ℕ × ℕ × SlotKind} (hp : p ∈ placed specs) :
    (CompactAccLayout.new specs).slots[p.2.1]? = some (p.1, p.2.2) := by
  have hmem : (p.2.1, p.1, p.2.2) ∈ (placed specs).map fun p => (p.2.1, p.1, p.2.2) :=
    List.mem_map_of_mem hp
  have hnodup : (((placed specs).map fun p => (p.2.1, p.1, p.2.2)).map Prod.fst).Nodup := by
    rw [map_fst_placed]
    exact (map_fst_byAlignment_perm specs).nodup_iff.mpr List.nodup_range
  have hlt : p.2.1 < specs.length := by
    rw [← List.mem_range, ← (map_fst_byAlignment_perm specs).mem_iff, ← map_fst_placed]
    exact List.mem_map_of_mem hmem
  apply getElem?_scatter hnodup hmem
  rwa [List.length_replicate]

theorem kind_of_placed {specs : List AccSpec} {p : ℕ × ℕ × SlotKind} (hp : p ∈ placed specs) :
    (specs.map AccSpec.kind)[p.2.1]? = some p.2.2 := by
  have hsnd : p.2 ∈ (placed specs).map Prod.snd := List.mem_map_of_mem hp
  rw [placed, map_snd_place, (byAlignment_perm specs).mem_iff, List.mem_map] at hsnd
  obtain ⟨e, he, hpe⟩ := hsnd
  have hentry := List.mem_zipIdx_iff_getElem?.mp he
  rw [← hpe]
  exact hentry

structure Laid (specs : List AccSpec) (layout : CompactAccLayout) : Prop where
  kinds : layout.slots.map Prod.snd = specs.map AccSpec.kind
  aligned : ∀ slot ∈ layout.slots, slot.2.alignment ∣ slot.1
  inside : ∀ slot ∈ layout.slots, slot.1 + slot.2.byteSize ≤ layout.groupStride
  apart : layout.slots.Pairwise Apart
  stride : 16 ∣ layout.groupStride

theorem exists_placed_of_slot {specs : List AccSpec} {i : ℕ} {slot : ℕ × SlotKind}
    (h : (CompactAccLayout.new specs).slots[i]? = some slot) :
    ∃ p ∈ placed specs, p.2.1 = i ∧ slot = (p.1, p.2.2) := by
  have hi : i < specs.length := by
    rw [← length_slots specs]
    exact (List.getElem?_eq_some_iff.mp h).1
  obtain ⟨p, hp, rfl⟩ := exists_placed hi
  have hslot := slots_of_placed hp
  rw [h] at hslot
  exact ⟨p, hp, rfl, Option.some.inj hslot⟩

theorem laid_new (specs : List AccSpec) : Laid specs (CompactAccLayout.new specs) where
  kinds := by
    apply List.ext_getElem?
    intro i
    rw [List.getElem?_map]
    by_cases hi : i < specs.length
    · obtain ⟨p, hp, rfl⟩ := exists_placed hi
      rw [slots_of_placed hp, kind_of_placed hp, Option.map_some]
    · have hslots := length_slots specs
      rw [List.getElem?_eq_none (by omega), List.getElem?_eq_none (by rw [List.length_map]; omega)]
      rfl
  aligned slot hslot := by
    obtain ⟨i, hi⟩ := List.getElem?_of_mem hslot
    obtain ⟨p, hp, -, rfl⟩ := exists_placed_of_slot hi
    exact dvd_of_mem_place (fun e : ℕ × SlotKind => e.2.alignment) _ hp
  inside slot hslot := by
    obtain ⟨i, hi⟩ := List.getElem?_of_mem hslot
    obtain ⟨p, hp, -, rfl⟩ := exists_placed_of_slot hi
    have hend := add_le_placeEnd (fun e : ℕ × SlotKind => e.2.alignment_pos) hp
    exact hend.trans (le_alignUp _ (by decide))
  apart := by
    rw [List.pairwise_iff_getElem]
    intro i j hi hj hij
    obtain ⟨p, hp, hpi, hslot⟩ := exists_placed_of_slot (List.getElem?_eq_getElem hi)
    obtain ⟨q, hq, hqj, hslot'⟩ := exists_placed_of_slot (List.getElem?_eq_getElem hj)
    rw [hslot, hslot']
    have hne : p ≠ q := by
      rintro rfl
      omega
    -- one of the two was placed before the other
    have hpairs : (placed specs).Pairwise fun p q => p.1 + p.2.2.byteSize ≤ q.1 :=
      @pairwise_place (ℕ × SlotKind) _ (fun e => e.2.byteSize) (fun e => e.2.alignment_pos) 0 _
    have happart : (placed specs).Pairwise fun p q => Apart (p.1, p.2.2) (q.1, q.2.2) :=
      hpairs.imp fun h => Or.inl h
    have hsymm : Std.Symm fun p q : ℕ × ℕ × SlotKind => Apart (p.1, p.2.2) (q.1, q.2.2) :=
      ⟨fun _ _ h => h.symm⟩
    exact happart.forall hp hq hne
  stride := dvd_alignUp _ 16

end DeltaX.Agg.AccLayout
