import Mathlib.Data.List.Basic
import Mathlib.Data.List.Nodup
/-!
# Aligned placement

Items are placed one behind the other, each at the next multiple of its alignment.  No two
of them overlap, in whatever order they are placed, and a table of the places can be
written back by index.
-/

namespace DeltaX.Support.Placement

def alignUp (n align : ℕ) : ℕ := (n + align - 1) / align * align

theorem le_alignUp (n : ℕ) {align : ℕ} (h : 0 < align) : n ≤ alignUp n align := by
  have hmod := Nat.mod_lt (n + align - 1) h
  have hsplit := Nat.div_add_mod' (n + align - 1) align
  unfold alignUp
  omega

theorem dvd_alignUp (n align : ℕ) : align ∣ alignUp n align := Nat.dvd_mul_left align _

section place

variable {α : Type*} (align size : α → ℕ)

def place : ℕ → List α → List (ℕ × α)
  | _, [] => []
  | off, x :: xs => (alignUp off (align x), x) :: place (alignUp off (align x) + size x) xs

def placeEnd : ℕ → List α → ℕ
  | off, [] => off
  | off, x :: xs => placeEnd (alignUp off (align x) + size x) xs

theorem map_snd_place (off : ℕ) (xs : List α) : (place align size off xs).map Prod.snd = xs := by
  induction xs generalizing off with
  | nil => rfl
  | cons x xs ih => rw [place, List.map_cons, ih]

theorem dvd_of_mem_place {off : ℕ} {xs : List α} {p : ℕ × α} (h : p ∈ place align size off xs) :
    align p.2 ∣ p.1 := by
  induction xs generalizing off with
  | nil => cases h
  | cons x xs ih =>
      rcases List.mem_cons.mp h with rfl | h
      · exact dvd_alignUp off (align x)
      · exact ih h

variable {align size} (halign : ∀ x, 0 < align x)
include halign

theorem le_placeEnd (off : ℕ) (xs : List α) : off ≤ placeEnd align size off xs := by
  induction xs generalizing off with
  | nil => exact Nat.le_refl off
  | cons x xs ih =>
      calc off ≤ alignUp off (align x) := le_alignUp off (halign x)
        _ ≤ alignUp off (align x) + size x := Nat.le_add_right _ _
        _ ≤ placeEnd align size off (x :: xs) := ih _

theorem le_of_mem_place {off : ℕ} {xs : List α} {p : ℕ × α} (h : p ∈ place align size off xs) :
    off ≤ p.1 := by
  induction xs generalizing off with
  | nil => cases h
  | cons x xs ih =>
      have hle := le_alignUp off (halign x)
      rcases List.mem_cons.mp h with rfl | h
      · exact hle
      · have := ih h
        omega

theorem add_le_placeEnd {off : ℕ} {xs : List α} {p : ℕ × α} (h : p ∈ place align size off xs) :
    p.1 + size p.2 ≤ placeEnd align size off xs := by
  induction xs generalizing off with
  | nil => cases h
  | cons x xs ih =>
      rcases List.mem_cons.mp h with rfl | h
      · exact le_placeEnd halign _ _
      · exact ih h

/-- No item reaches into a later one. -/
theorem pairwise_place (off : ℕ) (xs : List α) :
    (place align size off xs).Pairwise fun p q => p.1 + size p.2 ≤ q.1 := by
  induction xs generalizing off with
  | nil => exact .nil
  | cons x xs ih =>
      apply List.Pairwise.cons _ (ih _)
      intro q hq
      exact le_of_mem_place halign hq

end place

section scatter

variable {α : Type*}

/-- The values written into a table, each at its index. -/
def scatter (table : List α) (entries : List (ℕ × α)) : List α :=
  entries.foldl (fun table e => table.set e.1 e.2) table

theorem length_scatter (table : List α) (entries : List (ℕ × α)) :
    (scatter table entries).length = table.length := by
  induction entries generalizing table with
  | nil => rfl
  | cons e entries ih =>
      calc (scatter (table.set e.1 e.2) entries).length
          = (table.set e.1 e.2).length := ih _
        _ = table.length := List.length_set

theorem getElem?_scatter_of_not_mem (table : List α) {entries : List (ℕ × α)} {i : ℕ}
    (h : i ∉ entries.map Prod.fst) : (scatter table entries)[i]? = table[i]? := by
  induction entries generalizing table with
  | nil => rfl
  | cons e entries ih =>
      rw [List.map_cons, List.mem_cons, not_or] at h
      calc (scatter (table.set e.1 e.2) entries)[i]?
          = (table.set e.1 e.2)[i]? := ih _ h.2
        _ = table[i]? := List.getElem?_set_ne (Ne.symm h.1)

/-- Where no index is written twice, the table has every value that was written. -/
theorem getElem?_scatter {table : List α} {entries : List (ℕ × α)}
    (hnodup : (entries.map Prod.fst).Nodup) {e : ℕ × α} (he : e ∈ entries)
    (hlt : e.1 < table.length) : (scatter table entries)[e.1]? = some e.2 := by
  induction entries generalizing table with
  | nil => cases he
  | cons d entries ih =>
      rw [List.map_cons, List.nodup_cons] at hnodup
      rcases List.mem_cons.mp he with rfl | he
      · show (scatter (table.set e.1 e.2) entries)[e.1]? = some e.2
        rw [getElem?_scatter_of_not_mem _ hnodup.1, List.getElem?_set_self hlt]
      · apply ih hnodup.2 he
        rwa [List.length_set]

end scatter

end DeltaX.Support.Placement
