import Mathlib.Data.List.Perm.Subperm
import Mathlib.Data.List.Nodup
/-!
# Interning

A value is numbered when it is first seen, by its place in a table of all values so far.
Tables of their own may be merged: their entries are interned in turn.
-/

namespace DeltaX.Support.Interning

variable {α : Type*} [DecidableEq α]

def numberIn (table : List α) (v : α) : ℕ := table.idxOf v

/-- The number of a value, new or already there. -/
def intern (table : List α) (v : α) : List α × ℕ :=
  if v ∈ table then (table, numberIn table v) else (table ++ [v], table.length)

def internAll (table : List α) : List α → List α × List ℕ
  | [] => (table, [])
  | v :: vs =>
      let first := intern table v
      let rest := internAll first.1 vs
      (rest.1, first.2 :: rest.2)

def internLists (table : List α) : List (List α) → List α × List (List ℕ)
  | [] => (table, [])
  | vs :: lists =>
      let first := internAll table vs
      let rest := internLists first.1 lists
      (rest.1, first.2 :: rest.2)

/-! ## One value -/

theorem prefix_intern (table : List α) (v : α) : table <+: (intern table v).1 := by
  unfold intern
  split_ifs
  · exact List.prefix_refl table
  · exact List.prefix_append table [v]

theorem mem_intern (table : List α) (v u : α) : u ∈ (intern table v).1 ↔ u ∈ table ∨ u = v := by
  unfold intern
  split_ifs with hv
  · constructor
    · exact Or.inl
    · rintro (hu | rfl)
      · exact hu
      · exact hv
  · rw [List.mem_append, List.mem_singleton]

theorem nodup_intern {table : List α} (h : table.Nodup) (v : α) : (intern table v).1.Nodup := by
  unfold intern
  split_ifs with hv
  · exact h
  · rw [← List.concat_eq_append]
    exact h.concat hv

theorem intern_snd (table : List α) (v : α) :
    (intern table v).2 = numberIn (intern table v).1 v := by
  unfold intern numberIn
  split_ifs with hv
  · rfl
  · rw [List.idxOf_append_of_notMem hv, List.idxOf_cons_self, Nat.add_zero]

theorem numberIn_of_prefix {table table' : List α} (h : table <+: table') {v : α}
    (hv : v ∈ table) : numberIn table' v = numberIn table v := by
  obtain ⟨more, rfl⟩ := h
  exact List.idxOf_append_of_mem hv

theorem numberIn_lt {table : List α} {v : α} (hv : v ∈ table) :
    numberIn table v < table.length :=
  List.idxOf_lt_length_of_mem hv

theorem getElem?_numberIn {table : List α} {v : α} (hv : v ∈ table) :
    table[numberIn table v]? = some v := by
  rw [List.getElem?_eq_getElem (numberIn_lt hv)]
  exact congrArg some (List.getElem_idxOf (numberIn_lt hv))

theorem numberIn_getElem {table : List α} (h : table.Nodup) {n : ℕ} (hn : n < table.length) :
    numberIn table table[n] = n :=
  h.idxOf_getElem n hn

theorem numberIn_inj {table : List α} {u v : α} (hu : u ∈ table) (hv : v ∈ table) :
    numberIn table u = numberIn table v ↔ u = v := by
  constructor
  · intro heq
    have hget := getElem?_numberIn hu
    rw [heq, getElem?_numberIn hv] at hget
    exact (Option.some.inj hget).symm
  · rintro rfl
    rfl

/-! ## Lists -/

theorem prefix_internAll (table vs : List α) : table <+: (internAll table vs).1 := by
  induction vs generalizing table with
  | nil => exact List.prefix_refl table
  | cons v vs ih => exact (prefix_intern table v).trans (ih _)

theorem mem_internAll (table vs : List α) (u : α) :
    u ∈ (internAll table vs).1 ↔ u ∈ table ∨ u ∈ vs := by
  induction vs generalizing table with
  | nil => simp [internAll]
  | cons v vs ih =>
      show u ∈ (internAll (intern table v).1 vs).1 ↔ _
      rw [ih, mem_intern, List.mem_cons, or_assoc]

theorem nodup_internAll {table : List α} (h : table.Nodup) (vs : List α) :
    (internAll table vs).1.Nodup := by
  induction vs generalizing table with
  | nil => exact h
  | cons v vs ih => exact ih (nodup_intern h v)

/-- The numbers are the places in the table at the end. -/
theorem internAll_snd (table vs : List α) :
    (internAll table vs).2 = vs.map (numberIn (internAll table vs).1) := by
  induction vs generalizing table with
  | nil => rfl
  | cons v vs ih =>
      have hmem : v ∈ (intern table v).1 := (mem_intern table v v).mpr (Or.inr rfl)
      show (intern table v).2 :: (internAll (intern table v).1 vs).2 =
        numberIn (internAll (intern table v).1 vs).1 v ::
          vs.map (numberIn (internAll (intern table v).1 vs).1)
      rw [ih, intern_snd, numberIn_of_prefix (prefix_internAll _ vs) hmem]

theorem prefix_internLists (table : List α) (lists : List (List α)) :
    table <+: (internLists table lists).1 := by
  induction lists generalizing table with
  | nil => exact List.prefix_refl table
  | cons vs lists ih => exact (prefix_internAll table vs).trans (ih _)

theorem mem_internLists (table : List α) (lists : List (List α)) (u : α) :
    u ∈ (internLists table lists).1 ↔ u ∈ table ∨ u ∈ lists.flatten := by
  induction lists generalizing table with
  | nil => simp [internLists]
  | cons vs lists ih =>
      show u ∈ (internLists (internAll table vs).1 lists).1 ↔ _
      rw [ih, mem_internAll, List.flatten_cons, List.mem_append, or_assoc]

theorem nodup_internLists {table : List α} (h : table.Nodup) (lists : List (List α)) :
    (internLists table lists).1.Nodup := by
  induction lists generalizing table with
  | nil => exact h
  | cons vs lists ih => exact ih (nodup_internAll h vs)

theorem internLists_snd (table : List α) (lists : List (List α)) :
    (internLists table lists).2 =
      lists.map fun vs => vs.map (numberIn (internLists table lists).1) := by
  induction lists generalizing table with
  | nil => rfl
  | cons vs lists ih =>
      show (internAll table vs).2 :: (internLists (internAll table vs).1 lists).2 =
        vs.map (numberIn (internLists (internAll table vs).1 lists).1) ::
          lists.map fun vs' => vs'.map (numberIn (internLists (internAll table vs).1 lists).1)
      rw [ih, internAll_snd]
      congr 1
      apply List.map_congr_left
      intro v hv
      symm
      exact numberIn_of_prefix (prefix_internLists _ lists)
        ((mem_internAll table vs v).mpr (Or.inr hv))

/-- No more entries than values. -/
theorem length_internLists_le (lists : List (List α)) :
    (internLists [] lists).1.length ≤ lists.flatten.length := by
  apply List.Subperm.length_le
  apply (nodup_internLists List.nodup_nil lists).subperm
  intro u hu
  rcases (mem_internLists [] lists u).mp hu with hnil | hmem
  · cases hnil
  · exact hmem

/-! ## Merging tables -/

/-- Numbers in a table of a part, mapped to those of the merged table. -/
theorem numberIn_via {part merged : List α} {v : α} (hv : v ∈ part) :
    (part.map (numberIn merged))[numberIn part v]? = some (numberIn merged v) := by
  rw [List.getElem?_map, getElem?_numberIn hv]
  rfl

end DeltaX.Support.Interning
