import DeltaX.Support.KeyedMerge
/-!
# Keys with a place in a storage

A map from keys to positions of a storage, as a hash map beside an arena is.  A key
without a position gets a new one, with a zero in it.  Seen from outside this is a map
from keys to values.
-/

namespace DeltaX.Support

open KeyedMerge

variable {κ α : Type*} [DecidableEq κ]

theorem valueAt_append_of_notMem {m : List (κ × α)} {k : κ} (hk : k ∉ keys m) (i : α) (j : κ) :
    valueAt j (m ++ [(k, i)]) = if j = k then some i else valueAt j m := by
  induction m with
  | nil =>
      rw [List.nil_append, valueAt_cons]
      by_cases hj : j = k
      · rw [if_pos hj.symm, if_pos hj]
      · rw [if_neg (Ne.symm hj), if_neg hj]
  | cons g m ih =>
      rw [keys_cons, List.mem_cons, not_or] at hk
      rw [List.cons_append, valueAt_cons, valueAt_cons, ih hk.2]
      by_cases hg : g.1 = j
      · have hj : j ≠ k := fun h => hk.1 (h.symm.trans hg.symm)
        rw [if_pos hg, if_neg hj, if_pos hg]
      · rw [if_neg hg, if_neg hg]

theorem valueAt_map {β : Type*} (f : α → β) (k : κ) (m : List (κ × α)) :
    valueAt k (m.map fun g => (g.1, f g.2)) = (valueAt k m).map f := by
  induction m with
  | nil => rfl
  | cons g m ih =>
      rw [List.map_cons, valueAt_cons, valueAt_cons, ih]
      by_cases hg : g.1 = k <;> simp [hg]

/-- Every position is used by one key at most. -/
structure IndexedStore (κ α : Type*) [DecidableEq κ] where
  map : List (κ × ℕ)
  storage : List α
  nodup : (keys map).Nodup
  lt : ∀ k i, valueAt k map = some i → i < storage.length
  inj : ∀ k k' i, valueAt k map = some i → valueAt k' map = some i → k = k'

namespace IndexedStore

def empty : IndexedStore κ α where
  map := []
  storage := []
  nodup := List.nodup_nil
  lt := by simp
  inj := by simp

def get (s : IndexedStore κ α) (k : κ) : Option α :=
  match valueAt k s.map with
  | none => none
  | some i => s.storage[i]?

def modify (s : IndexedStore κ α) (i : ℕ) (f : α → α) : IndexedStore κ α where
  map := s.map
  storage := s.storage.modify i f
  nodup := s.nodup
  lt k j hj := by
    rw [List.length_modify]
    exact s.lt k j hj
  inj := s.inj

variable [Zero α]

/-- Give a new key the next position. -/
def alloc (s : IndexedStore κ α) (k : κ) (hk : k ∉ keys s.map) : IndexedStore κ α where
  map := s.map ++ [(k, s.storage.length)]
  storage := s.storage ++ [0]
  nodup := by
    rw [keys, List.map_append, List.nodup_append]
    refine ⟨s.nodup, by simp, ?_⟩
    intro a ha b hb heq
    rw [List.map_singleton, List.mem_singleton] at hb
    rw [heq, hb] at ha
    exact hk ha
  lt j i hi := by
    rw [valueAt_append_of_notMem hk] at hi
    rw [List.length_append, List.length_singleton]
    split_ifs at hi
    · cases hi
      omega
    · have := s.lt j i hi
      omega
  inj j j' i hj hj' := by
    rw [valueAt_append_of_notMem hk] at hj hj'
    split_ifs at hj hj' with h h' h'
    · exact h.trans h'.symm
    · cases hj
      exact absurd (s.lt j' _ hj') (Nat.lt_irrefl _)
    · cases hj'
      exact absurd (s.lt j _ hj) (Nat.lt_irrefl _)
    · exact s.inj j j' i hj hj'

/-- Change the value of a key, from zero when it has none. -/
def upsert (s : IndexedStore κ α) (k : κ) (f : α → α) : IndexedStore κ α :=
  match h : valueAt k s.map with
  | some i => s.modify i f
  | none => (s.alloc k (valueAt_eq_none_iff.mp h)).modify s.storage.length f

omit [Zero α] in
theorem get_modify (s : IndexedStore κ α) {k : κ} {i : ℕ} (hk : valueAt k s.map = some i)
    (f : α → α) (j : κ) :
    (s.modify i f).get j = if j = k then (s.get k).map f else s.get j := by
  unfold get modify
  simp only
  by_cases hj : j = k
  · subst hj
    rw [if_pos rfl, hk]
    simp
  · rw [if_neg hj]
    rcases hval : valueAt j s.map with - | i'
    · rfl
    · have hne : i ≠ i' := fun h => hj (s.inj j k i' hval (h ▸ hk))
      simp [hne]

theorem get_alloc (s : IndexedStore κ α) {k : κ} (hk : k ∉ keys s.map) (j : κ) :
    (s.alloc k hk).get j = if j = k then some 0 else s.get j := by
  unfold get alloc
  simp only [valueAt_append_of_notMem hk]
  by_cases hj : j = k
  · simp [hj]
  · rw [if_neg hj, if_neg hj]
    rcases hval : valueAt j s.map with - | i
    · rfl
    · simp only [List.getElem?_append_left (s.lt j i hval)]

omit [Zero α] in
theorem get_isSome (s : IndexedStore κ α) {k : κ} {i : ℕ} (hk : valueAt k s.map = some i) :
    ∃ a, s.get k = some a := by
  have hlt := s.lt k i hk
  refine ⟨s.storage[i], ?_⟩
  simp only [get, hk]
  exact List.getElem?_eq_getElem hlt

theorem get_upsert (s : IndexedStore κ α) (k : κ) (f : α → α) (j : κ) :
    (s.upsert k f).get j = if j = k then some (f ((s.get k).getD 0)) else s.get j := by
  unfold upsert
  split
  · rename_i i hk
    obtain ⟨a, ha⟩ := s.get_isSome hk
    rw [get_modify s hk, ha]
    rfl
  · rename_i hk
    have hnew : k ∉ keys s.map := valueAt_eq_none_iff.mp hk
    have hplace : valueAt k (s.alloc k hnew).map = some s.storage.length := by
      show valueAt k (s.map ++ [(k, s.storage.length)]) = _
      rw [valueAt_append_of_notMem hnew, if_pos rfl]
    have hnone : s.get k = none := by
      simp only [get, hk]
    rw [get_modify _ hplace, get_alloc, get_alloc, if_pos rfl, hnone]
    split_ifs <;> rfl

end IndexedStore

/-! ## Sums of what belongs to a key -/

/-- What stands under a key in a list of entries. -/
def valuesAt (k : κ) (entries : List (κ × α)) : List α :=
  (entries.filter fun e => decide (e.1 = k)).map Prod.snd

theorem valuesAt_cons (k : κ) (e : κ × α) (entries : List (κ × α)) :
    valuesAt k (e :: entries) = if e.1 = k then e.2 :: valuesAt k entries else valuesAt k entries := by
  unfold valuesAt
  by_cases he : e.1 = k <;> simp [he]

theorem valuesAt_flatMap {ι : Type*} (k : κ) (parts : List ι) (entries : ι → List (κ × α)) :
    valuesAt k (parts.flatMap entries) = parts.flatMap fun p => valuesAt k (entries p) := by
  unfold valuesAt
  rw [List.filter_flatMap, List.map_flatMap]

theorem valuesAt_perm {entries entries' : List (κ × α)} (h : entries.Perm entries') (k : κ) :
    (valuesAt k entries).Perm (valuesAt k entries') := (h.filter _).map _

/-- A map has one value under a key at most. -/
theorem valuesAt_of_nodup {entries : List (κ × α)} (h : (keys entries).Nodup) (k : κ) :
    valuesAt k entries = (valueAt k entries).toList := by
  induction entries with
  | nil => rfl
  | cons e entries ih =>
      rw [keys_cons, List.nodup_cons] at h
      rw [valuesAt_cons, valueAt_cons, ih h.2]
      by_cases he : e.1 = k
      · rw [if_pos he, if_pos he, valueAt_eq_none_iff.mpr (he ▸ h.1)]
        rfl
      · rw [if_neg he, if_neg he]

section gathered

variable [AddCommMonoid α]

def gathered (held : List α) : Option α := if held.isEmpty then none else some held.sum

theorem gathered_perm {held held' : List α} (h : held.Perm held') :
    gathered held = gathered held' := by
  unfold gathered
  rw [h.isEmpty_eq, h.sum_eq]

theorem gathered_toList_append (held more : List α) :
    gathered ((gathered held).toList ++ more) = gathered (held ++ more) := by
  rcases held with - | ⟨a, held⟩ <;> simp [gathered, add_assoc]

/-- Sums of parts are summed to the sum of all. -/
theorem gathered_flatMap {ι : Type*} (parts : List ι) (held : ι → List α) :
    gathered (parts.flatMap fun p => (gathered (held p)).toList) = gathered (parts.flatMap held) := by
  induction parts with
  | nil => rfl
  | cons p parts ih =>
      rw [List.flatMap_cons, List.flatMap_cons, gathered_toList_append]
      calc
        gathered (held p ++ parts.flatMap fun p => (gathered (held p)).toList) =
            gathered ((parts.flatMap fun p => (gathered (held p)).toList) ++ held p) :=
          gathered_perm List.perm_append_comm
        _ = gathered ((gathered (parts.flatMap fun p => (gathered (held p)).toList)).toList ++
            held p) := (gathered_toList_append _ _).symm
        _ = gathered ((gathered (parts.flatMap held)).toList ++ held p) := by rw [ih]
        _ = gathered (parts.flatMap held ++ held p) := gathered_toList_append _ _
        _ = gathered (held p ++ parts.flatMap held) := gathered_perm List.perm_append_comm

/-- Entries added one after the other are summed up under their keys. -/
theorem IndexedStore.get_foldl_add (s : IndexedStore κ α) (entries : List (κ × α)) (k : κ) :
    (entries.foldl (fun s e => s.upsert e.1 fun a => a + e.2) s).get k =
      gathered ((s.get k).toList ++ valuesAt k entries) := by
  induction entries generalizing s with
  | nil =>
      rcases h : s.get k with - | a
      · simp [gathered, valuesAt, h]
      · simp [gathered, valuesAt, h]
  | cons e entries ih =>
      rw [List.foldl_cons, ih, get_upsert, valuesAt_cons]
      by_cases he : e.1 = k
      · rw [if_pos he.symm, if_pos he, he]
        rcases s.get k with - | a <;> simp [gathered, add_assoc]
      · rw [if_neg (Ne.symm he), if_neg he]

/-- The same for a map that is a list of entries. -/
theorem valueAt_mergeInto_eq_gathered (dst src : List (κ × α)) (k : κ) :
    valueAt k (mergeInto dst src) = gathered ((valueAt k dst).toList ++ valuesAt k src) := by
  induction src generalizing dst with
  | nil => rcases h : valueAt k dst with - | a <;> simp [gathered, valuesAt, mergeInto, h]
  | cons e src ih =>
      have hstep : mergeInto dst (e :: src) =
          mergeInto (KeyedMerge.upsert e.1 (fun held => held.getD 0 + e.2) dst) src := rfl
      rw [hstep, ih, valueAt_upsert, valuesAt_cons]
      by_cases he : e.1 = k
      · rw [if_pos he.symm, if_pos he, he]
        rcases valueAt k dst with - | a <;> simp [gathered, add_assoc]
      · rw [if_neg (Ne.symm he), if_neg he]

theorem merged_eq_gathered (k : κ) (maps : List (List (κ × α))) :
    merged k maps = gathered (maps.flatMap fun m => (valueAt k m).toList) := by
  rw [merged, contributions, List.filterMap_eq_flatMap_toList]
  rfl

end gathered

end DeltaX.Support
