import Mathlib.Data.List.Basic
import Mathlib.Tactic.Ring
/-!
# Chunks of a list

A list cut into consecutive chunks of one size, the last of them shorter.
-/

namespace DeltaX.Support.Chunks

variable {α β : Type*}

/-- How many chunks of a size `n` elements fill. -/
def divCeil (n size : ℕ) : ℕ := (n + size - 1) / size

def chunk (size : ℕ) (xs : List α) (k : ℕ) : List α := (xs.drop (k * size)).take size

def chunks (size : ℕ) (xs : List α) : List (List α) :=
  (List.range (divCeil xs.length size)).map (chunk size xs)

theorem length_chunks (size : ℕ) (xs : List α) :
    (chunks size xs).length = divCeil xs.length size := by
  rw [chunks, List.length_map, List.length_range]

theorem chunks_nil {size : ℕ} (hsize : 0 < size) : chunks size ([] : List α) = [] := by
  have hzero : divCeil ([] : List α).length size = 0 := by
    rw [divCeil, List.length_nil, Nat.div_eq_zero_iff]
    omega
  rw [chunks, hzero, List.range_zero, List.map_nil]

theorem divCeil_of_pos {n size : ℕ} (hsize : 0 < size) (hn : 0 < n) :
    divCeil n size = divCeil (n - size) size + 1 := by
  unfold divCeil
  by_cases hle : n ≤ size
  · have hzero : n - size = 0 := by omega
    have hone : (n + size - 1) / size = 1 := by
      rw [Nat.div_eq_iff hsize]
      omega
    rw [hone, hzero, Nat.zero_add, Nat.div_eq_of_lt (by omega)]
  · have hsplit : n + size - 1 = n - size + size - 1 + size := by omega
    rw [hsplit, Nat.add_div_right _ hsize]

theorem chunks_of_ne_nil {size : ℕ} (hsize : 0 < size) {xs : List α} (hxs : xs ≠ []) :
    chunks size xs = xs.take size :: chunks size (xs.drop size) := by
  have hpos : 0 < xs.length := List.length_pos_of_ne_nil hxs
  have hshift : chunk size xs ∘ Nat.succ = chunk size (xs.drop size) := by
    funext k
    show ((xs.drop ((k + 1) * size)).take size) = (((xs.drop size).drop (k * size)).take size)
    rw [List.drop_drop]
    congr 2
    ring
  have hfirst : chunk size xs 0 = xs.take size := by
    rw [chunk, Nat.zero_mul, List.drop_zero]
  rw [chunks, divCeil_of_pos hsize hpos, List.range_succ_eq_map, List.map_cons, List.map_map,
    hshift, hfirst, chunks, List.length_drop]

theorem chunks_induction {size : ℕ} (hsize : 0 < size) {P : List α → Prop} (nil : P [])
    (step : ∀ xs, xs ≠ [] → P (xs.drop size) → P xs) (xs : List α) : P xs := by
  by_cases hxs : xs = []
  · rwa [hxs]
  · have hpos : 0 < xs.length := List.length_pos_of_ne_nil hxs
    exact step xs hxs (chunks_induction hsize nil step (xs.drop size))
termination_by xs.length
decreasing_by
  rw [List.length_drop]
  omega

theorem chunks_map {size : ℕ} (f : α → β) (xs : List α) :
    chunks size (xs.map f) = (chunks size xs).map (List.map f) := by
  rw [chunks, chunks, List.map_map, List.length_map]
  apply List.map_congr_left
  intro k _
  rw [chunk, Function.comp_apply, chunk, List.map_take, List.map_drop]

theorem flatten_chunks {size : ℕ} (hsize : 0 < size) (xs : List α) :
    (chunks size xs).flatten = xs := by
  induction xs using chunks_induction hsize with
  | nil => rw [chunks_nil hsize, List.flatten_nil]
  | step xs hxs ih =>
      rw [chunks_of_ne_nil hsize hxs, List.flatten_cons, ih, List.take_append_drop]

theorem ne_nil_of_mem_chunks {size : ℕ} (hsize : 0 < size) {xs c : List α}
    (hc : c ∈ chunks size xs) : c ≠ [] := by
  induction xs using chunks_induction hsize with
  | nil =>
      rw [chunks_nil hsize] at hc
      exact absurd hc List.not_mem_nil
  | step xs hxs ih =>
      rw [chunks_of_ne_nil hsize hxs, List.mem_cons] at hc
      cases hc with
      | inl hfirst =>
          have hpos : 0 < xs.length := List.length_pos_of_ne_nil hxs
          rw [hfirst]
          apply List.ne_nil_of_length_pos
          rw [List.length_take]
          omega
      | inr hrest => exact ih hrest

theorem length_flatMap_chunks {size : ℕ} (hsize : 0 < size) (f : List α → α → β) (xs : List α) :
    ((chunks size xs).flatMap fun c => c.map (f c)).length = xs.length := by
  have hlengths : (chunks size xs).map (fun c => (c.map (f c)).length) =
      (chunks size xs).map List.length := by
    apply List.map_congr_left
    intro c _
    exact List.length_map _
  rw [List.length_flatMap, hlengths, ← List.length_flatten, flatten_chunks hsize]

/-- What a loop over the chunks makes of each element, found by the element's number. -/
theorem getElem?_flatMap_chunks {size : ℕ} (hsize : 0 < size) (f : List α → α → β) (xs : List α)
    (i : ℕ) :
    ((chunks size xs).flatMap fun c => c.map (f c))[i]? =
      xs[i]?.map (f (chunk size xs (i / size))) := by
  induction xs using chunks_induction hsize generalizing i with
  | nil => rw [chunks_nil hsize, List.flatMap_nil, List.getElem?_nil, List.getElem?_nil]; rfl
  | step xs hxs ih =>
      rw [chunks_of_ne_nil hsize hxs, List.flatMap_cons]
      by_cases hi : i < size
      · have hchunk : chunk size xs (i / size) = xs.take size := by
          rw [Nat.div_eq_of_lt hi, chunk, Nat.zero_mul, List.drop_zero]
        rw [hchunk]
        by_cases hlen : i < xs.length
        · rw [List.getElem?_append_left (by rw [List.length_map, List.length_take]; omega),
            List.getElem?_map, List.getElem?_take_of_lt hi]
        · have hdrop : xs.drop size = [] := List.drop_of_length_le (by omega)
          rw [hdrop, chunks_nil hsize, List.flatMap_nil, List.append_nil, List.getElem?_map,
            List.getElem?_take_of_lt hi]
      · by_cases hlen : xs.length ≤ size
        · have hdrop : xs.drop size = [] := List.drop_of_length_le hlen
          have hout : xs[i]? = none := List.getElem?_eq_none (by omega)
          rw [hdrop, chunks_nil hsize, List.flatMap_nil, List.append_nil, hout,
            List.getElem?_eq_none]
          · rfl
          · rw [List.length_map, List.length_take]
            omega
        · have hfirst : ((xs.take size).map (f (xs.take size))).length = size := by
            rw [List.length_map, List.length_take]
            omega
          have hchunk : chunk size (xs.drop size) ((i - size) / size) =
              chunk size xs (i / size) := by
            have hdiv : i / size = (i - size) / size + 1 := by
              rw [← Nat.add_div_right _ hsize]
              congr 1
              omega
            rw [chunk, chunk, List.drop_drop, hdiv]
            congr 2
            ring
          rw [List.getElem?_append_right (by omega), hfirst, ih, hchunk, List.getElem?_drop]
          congr 2
          omega

theorem mem_chunk {size : ℕ} (hsize : 0 < size) {xs : List α} {k : ℕ} {x : α} :
    x ∈ chunk size xs k ↔ ∃ j, j / size = k ∧ xs[j]? = some x := by
  rw [chunk, List.mem_iff_getElem?]
  constructor
  · intro ⟨i, hi⟩
    have hlt : i < size := by
      by_contra hge
      rw [List.getElem?_eq_none] at hi
      · exact absurd hi (by simp)
      · rw [List.length_take]
        omega
    rw [List.getElem?_take_of_lt hlt, List.getElem?_drop] at hi
    refine ⟨k * size + i, ?_, hi⟩
    rw [Nat.div_eq_iff hsize]
    constructor <;> omega
  · intro ⟨j, hj, hx⟩
    have hmod : j % size < size := Nat.mod_lt j hsize
    have hsplit : k * size + j % size = j := by
      rw [← hj, Nat.mul_comm]
      exact Nat.div_add_mod j size
    refine ⟨j % size, ?_⟩
    rw [List.getElem?_take_of_lt hmod, List.getElem?_drop, hsplit]
    exact hx

end DeltaX.Support.Chunks
