import Mathlib.Algebra.BigOperators.Group.List.Basic
import Mathlib.Data.List.Dedup
/-!
# Merging keyed maps

Maps held as lists of entries with distinct keys, and the merge of several such
maps when the values of one key are added up in a commutative monoid.  What the
merge holds under a key is the sum of what the maps hold there, whatever the
order in which they are merged.
-/

namespace DeltaX.Support.KeyedMerge

variable {κ α : Type*}

def keys (m : List (κ × α)) : List κ := m.map Prod.fst

@[simp] theorem keys_nil : keys ([] : List (κ × α)) = [] := rfl

@[simp] theorem keys_cons (g : κ × α) (m : List (κ × α)) : keys (g :: m) = g.1 :: keys m := rfl

variable [DecidableEq κ]

def valueAt (k : κ) (m : List (κ × α)) : Option α :=
  (m.find? fun g => decide (g.1 = k)).map Prod.snd

@[simp] theorem valueAt_nil (k : κ) : valueAt k ([] : List (κ × α)) = none := rfl

theorem valueAt_cons (k : κ) (g : κ × α) (m : List (κ × α)) :
    valueAt k (g :: m) = if g.1 = k then some g.2 else valueAt k m := by
  by_cases hk : g.1 = k <;> simp [valueAt, hk]

theorem valueAt_eq_none_iff {k : κ} {m : List (κ × α)} : valueAt k m = none ↔ k ∉ keys m := by
  induction m with
  | nil => simp
  | cons g m ih =>
      by_cases hk : g.1 = k
      · simp [valueAt_cons, hk]
      · rw [valueAt_cons, if_neg hk, ih, keys_cons, List.mem_cons, not_or]
        exact ⟨fun h => ⟨fun heq => hk heq.symm, h⟩, fun h => h.2⟩

theorem mem_of_valueAt {k : κ} {a : α} {m : List (κ × α)} (h : valueAt k m = some a) :
    (k, a) ∈ m := by
  induction m with
  | nil => simp at h
  | cons g m ih =>
      rw [valueAt_cons] at h
      by_cases hk : g.1 = k
      · rw [if_pos hk] at h
        have hg : g = (k, a) := Prod.ext hk (Option.some.inj h)
        rw [hg]
        exact List.mem_cons_self
      · rw [if_neg hk] at h
        exact List.mem_cons_of_mem _ (ih h)

theorem valueAt_of_mem {k : κ} {a : α} {m : List (κ × α)} (hnodup : (keys m).Nodup)
    (h : (k, a) ∈ m) : valueAt k m = some a := by
  induction m with
  | nil => cases h
  | cons g m ih =>
      rw [keys_cons, List.nodup_cons] at hnodup
      rw [valueAt_cons]
      rcases List.mem_cons.mp h with rfl | h
      · rw [if_pos rfl]
      · have hmem : k ∈ keys m := List.mem_map_of_mem h
        have hk : g.1 ≠ k := fun heq => hnodup.1 (heq ▸ hmem)
        rw [if_neg hk]
        exact ih hnodup.2 h

theorem mem_iff_valueAt {k : κ} {a : α} {m : List (κ × α)} (hnodup : (keys m).Nodup) :
    (k, a) ∈ m ↔ valueAt k m = some a := ⟨valueAt_of_mem hnodup, mem_of_valueAt⟩

theorem valueAt_filter_key (p : κ → Bool) (k : κ) (m : List (κ × α)) :
    valueAt k (m.filter fun g => p g.1) = if p k then valueAt k m else none := by
  induction m with
  | nil => simp
  | cons g m ih =>
      rw [List.filter_cons]
      by_cases hg : p g.1 = true
      · rw [if_pos hg, valueAt_cons, valueAt_cons, ih]
        by_cases hk : g.1 = k
        · rw [if_pos hk, if_pos hk, if_pos (hk ▸ hg)]
        · rw [if_neg hk, if_neg hk]
      · rw [if_neg hg, ih, valueAt_cons]
        by_cases hk : g.1 = k
        · rw [← hk, if_neg hg, if_neg hg]
        · rw [if_neg hk]

/-! ## One entry -/

/-- Replace the value under `k`, or enter one. -/
def upsert (k : κ) (f : Option α → α) : List (κ × α) → List (κ × α)
  | [] => [(k, f none)]
  | (j, a) :: m => if j = k then (j, f (some a)) :: m else (j, a) :: upsert k f m

theorem valueAt_upsert (k j : κ) (f : Option α → α) (m : List (κ × α)) :
    valueAt j (upsert k f m) = if j = k then some (f (valueAt k m)) else valueAt j m := by
  induction m with
  | nil =>
      by_cases hj : j = k
      · simp [upsert, valueAt_cons, hj]
      · simp [upsert, valueAt_cons, hj, Ne.symm hj]
  | cons g m ih =>
      rw [upsert]
      by_cases hk : g.1 = k
      · rw [if_pos hk, valueAt_cons, valueAt_cons, valueAt_cons, if_pos hk]
        by_cases hj : j = k
        · simp [hj, hk]
        · have hgj : g.1 ≠ j := fun heq => hj (heq.symm.trans hk)
          simp [hj, hgj]
      · rw [if_neg hk, valueAt_cons, valueAt_cons, valueAt_cons, if_neg hk, ih]
        by_cases hj : j = k
        · have hgj : g.1 ≠ j := fun heq => hk (heq.trans hj)
          simp [hj, hk]
        · simp [hj]

theorem mem_keys_upsert {k j : κ} {f : Option α → α} {m : List (κ × α)} :
    j ∈ keys (upsert k f m) ↔ j = k ∨ j ∈ keys m := by
  rw [← not_iff_not, ← valueAt_eq_none_iff, valueAt_upsert, not_or, ← valueAt_eq_none_iff]
  by_cases hj : j = k <;> simp [hj]

theorem nodup_keys_upsert {k : κ} {f : Option α → α} {m : List (κ × α)}
    (hnodup : (keys m).Nodup) : (keys (upsert k f m)).Nodup := by
  induction m with
  | nil => simp [upsert]
  | cons g m ih =>
      rw [keys_cons, List.nodup_cons] at hnodup
      rw [upsert]
      by_cases hk : g.1 = k
      · rw [if_pos hk, keys_cons, List.nodup_cons]
        exact hnodup
      · rw [if_neg hk, keys_cons, List.nodup_cons, mem_keys_upsert, not_or]
        exact ⟨⟨hk, hnodup.1⟩, ih hnodup.2⟩

/-! ## Whole maps -/

/-- What the maps hold under `k`, map by map. -/
def contributions (k : κ) (maps : List (List (κ × α))) : List α := maps.filterMap (valueAt k)

theorem contributions_cons (k : κ) (m : List (κ × α)) (maps : List (List (κ × α))) :
    contributions k (m :: maps) = (valueAt k m).toList ++ contributions k maps := by
  cases h : valueAt k m <;> simp [contributions, h]

theorem contributions_eq_nil_iff {k : κ} {maps : List (List (κ × α))} :
    contributions k maps = [] ↔ ∀ m ∈ maps, k ∉ keys m := by
  simp [contributions, List.filterMap_eq_nil_iff, valueAt_eq_none_iff]

section merge

variable [AddCommMonoid α]

/-- Add every entry of `src` to the one under its key. -/
def mergeInto (dst src : List (κ × α)) : List (κ × α) :=
  src.foldl (fun m g => upsert g.1 (fun held => held.getD 0 + g.2) m) dst

/-- Merge one map after another into `dst`. -/
def mergeAll (dst : List (κ × α)) (maps : List (List (κ × α))) : List (κ × α) :=
  maps.foldl mergeInto dst

/-- The sum of what several maps hold under a key. -/
def merged (k : κ) (maps : List (List (κ × α))) : Option α :=
  if (contributions k maps).isEmpty then none else some (contributions k maps).sum

theorem valueAt_mergeInto {dst src : List (κ × α)} (hnodup : (keys src).Nodup) (k : κ) :
    valueAt k (mergeInto dst src) =
      match valueAt k src with
      | none => valueAt k dst
      | some a => some ((valueAt k dst).getD 0 + a) := by
  induction src generalizing dst with
  | nil => rfl
  | cons g src ih =>
      rw [keys_cons, List.nodup_cons] at hnodup
      have hstep : mergeInto dst (g :: src) =
          mergeInto (upsert g.1 (fun held => held.getD 0 + g.2) dst) src := rfl
      rw [hstep, ih hnodup.2, valueAt_upsert, valueAt_cons]
      by_cases hk : g.1 = k
      · have hsrc : valueAt k src = none := valueAt_eq_none_iff.mpr (hk ▸ hnodup.1)
        simp [hk, hsrc]
      · simp [hk, Ne.symm hk]

theorem nodup_keys_mergeInto {dst : List (κ × α)} (hnodup : (keys dst).Nodup)
    (src : List (κ × α)) : (keys (mergeInto dst src)).Nodup := by
  induction src generalizing dst with
  | nil => exact hnodup
  | cons g src ih => exact ih (nodup_keys_upsert hnodup)

theorem nodup_keys_mergeAll {dst : List (κ × α)} (hnodup : (keys dst).Nodup)
    (maps : List (List (κ × α))) : (keys (mergeAll dst maps)).Nodup := by
  induction maps generalizing dst with
  | nil => exact hnodup
  | cons m maps ih => exact ih (nodup_keys_mergeInto hnodup m)

theorem valueAt_mergeAll {dst : List (κ × α)} {maps : List (List (κ × α))}
    (hnodup : ∀ m ∈ maps, (keys m).Nodup) (k : κ) :
    valueAt k (mergeAll dst maps) = merged k (dst :: maps) := by
  induction maps generalizing dst with
  | nil => cases h : valueAt k dst <;> simp [mergeAll, merged, contributions, h]
  | cons m maps ih =>
      have hstep : mergeAll dst (m :: maps) = mergeAll (mergeInto dst m) maps := rfl
      rw [hstep, ih fun m' hm' => hnodup m' (List.mem_cons_of_mem _ hm')]
      unfold merged
      rw [contributions_cons, contributions_cons, contributions_cons,
        valueAt_mergeInto (hnodup m List.mem_cons_self)]
      cases hm : valueAt k m <;> cases hd : valueAt k dst <;> simp [add_assoc]

theorem merged_perm {maps maps' : List (List (κ × α))} (h : maps.Perm maps') (k : κ) :
    merged k maps = merged k maps' := by
  have hcontributions : (contributions k maps).Perm (contributions k maps') := h.filterMap _
  unfold merged
  rw [hcontributions.sum_eq, hcontributions.isEmpty_eq]

theorem merged_eq_some_iff {k : κ} {maps : List (List (κ × α))} {a : α} :
    merged k maps = some a ↔ (∃ m ∈ maps, k ∈ keys m) ∧ (contributions k maps).sum = a := by
  have hnil : contributions k maps = [] ↔ ∀ m ∈ maps, k ∉ keys m := contributions_eq_nil_iff
  unfold merged
  cases h : contributions k maps with
  | nil =>
      have hnone := hnil.mp h
      apply iff_of_false (by simp)
      intro hsome
      obtain ⟨m, hm, hk⟩ := hsome.1
      exact hnone m hm hk
  | cons b bs =>
      have hsome : ∃ m ∈ maps, k ∈ keys m := by
        by_contra hne
        push Not at hne
        rw [hnil.mpr hne] at h
        cases h
      simp [hsome]

theorem merged_nil_cons (k : κ) (maps : List (List (κ × α))) :
    merged k ([] :: maps) = merged k maps := by
  rw [merged, merged, contributions_cons, valueAt_nil]
  rfl

end merge

end DeltaX.Support.KeyedMerge
