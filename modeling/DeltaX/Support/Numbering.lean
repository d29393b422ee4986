import Mathlib.Data.List.Basic
/-!
# Numbering the selected elements of a list

Elements of a list that satisfy a predicate are numbered in order; the others
get no number.  The number of an element is its place in the filtered list.
-/

namespace DeltaX.Support.Numbering

variable {α β : Type*} (p : α → Bool)

/-- Number the elements that satisfy `p`, from `start` on. -/
def number (start : ℕ) : List α → List (Option ℕ)
  | [] => []
  | x :: xs => if p x then some start :: number (start + 1) xs else none :: number start xs

/-- How many of the first `k` elements satisfy `p`. -/
def before (xs : List α) (k : ℕ) : ℕ := ((xs.take k).filter p).length

variable {p}

@[simp] theorem length_number (start : ℕ) (xs : List α) :
    (number p start xs).length = xs.length := by
  induction xs generalizing start with
  | nil => rfl
  | cons x xs ih =>
      unfold number
      split <;> simp [ih]

theorem getElem?_number (start : ℕ) (xs : List α) (k : ℕ) :
    (number p start xs)[k]? =
      xs[k]?.map fun x => if p x then some (start + before p xs k) else none := by
  induction xs generalizing start k with
  | nil => rfl
  | cons x xs ih =>
      cases k with
      | zero => cases hx : p x <;> simp [number, before, hx]
      | succ k =>
          cases hx : p x with
          | true =>
              have hstart : start + 1 + before p xs k = start + (before p xs k + 1) := by omega
              simp [number, hx, ih, before] at hstart ⊢
              simp [hstart]
          | false => simp [number, hx, ih, before]

theorem number_map (f : β → α) (start : ℕ) (xs : List β) :
    number p start (xs.map f) = number (p ∘ f) start xs := by
  induction xs generalizing start with
  | nil => rfl
  | cons x xs ih => simp only [List.map_cons, number, Function.comp, ih]

theorem before_map (f : β → α) (xs : List β) (k : ℕ) :
    before p (xs.map f) k = before (p ∘ f) xs k := by
  rw [before, before, ← List.map_take, List.filter_map, List.length_map]

theorem before_congr {q : α → Bool} {xs : List α} {k : ℕ} (h : ∀ x ∈ xs.take k, p x = q x) :
    before p xs k = before q xs k := by
  rw [before, before, List.filter_congr h]

/-- The number of an element is its place among the selected ones. -/
theorem getElem?_filter_before {xs : List α} {k : ℕ} {x : α} (hx : xs[k]? = some x)
    (hp : p x = true) : (xs.filter p)[before p xs k]? = some x := by
  induction xs generalizing k with
  | nil => cases hx
  | cons y xs ih =>
      cases k with
      | zero =>
          cases hx
          simp [before, hp]
      | succ k =>
          have hrest := ih (by simpa using hx)
          cases hy : p y <;> simpa [before, hy] using hrest

theorem filter_isSome_zip_number (start : ℕ) (xs : List α) :
    ((xs.zip (number p start xs)).filter fun q => q.2.isSome).map Prod.fst = xs.filter p := by
  induction xs generalizing start with
  | nil => rfl
  | cons x xs ih => cases hx : p x <;> simp [number, hx, ih]

/-- When every element is selected the numbers are the positions. -/
theorem before_of_forall {xs : List α} (h : ∀ x ∈ xs, p x = true) {k : ℕ}
    (hk : k ≤ xs.length) : before p xs k = k := by
  have hall : (xs.take k).filter p = xs.take k :=
    List.filter_eq_self.mpr fun x hx => h x (List.mem_of_mem_take hx)
  rw [before, hall, List.length_take, Nat.min_eq_left hk]

/-- The selected elements keep their positions exactly when none of them stands
after one that is not selected. -/
theorem forall_before_eq_iff (xs : List α) :
    (∀ k x, xs[k]? = some x → p x = true → before p xs k = k) ↔
      xs.Pairwise fun x y => p x = false → p y = false := by
  induction xs with
  | nil => simp
  | cons x xs ih =>
      rw [List.pairwise_cons, ← ih]
      cases hx : p x with
      | true =>
          simp only [Bool.true_eq_false, false_implies, implies_true, true_and]
          constructor
          · intro h k y hy hp
            have hk := h (k + 1) y (by simpa using hy) hp
            simpa [before, hx] using hk
          · intro h k y hy hp
            cases k with
            | zero => rfl
            | succ k =>
                have hk := h k y (by simpa using hy) hp
                simpa [before, hx] using hk
      | false =>
          simp only [forall_const]
          constructor
          · intro h
            -- a selected element after `x` would have moved
            have hnone : ∀ y ∈ xs, p y = false := by
              intro y hy
              obtain ⟨k, hk⟩ := List.mem_iff_getElem?.mp hy
              by_contra hp
              have hmoved := h (k + 1) y (by simpa using hk) (by simpa using hp)
              have hle : before p (x :: xs) (k + 1) ≤ k := by
                simp only [before, List.take_succ_cons, hx, Bool.false_eq_true, not_false_eq_true,
                  List.filter_cons_of_neg]
                exact Nat.le_trans (List.length_filter_le _ _) (List.length_take_le k xs)
              omega
            refine ⟨hnone, ?_⟩
            intro k y hy hp
            rw [hnone y (List.mem_of_getElem? hy)] at hp
            cases hp
          · rintro ⟨hnone, -⟩ k y hy hp
            cases k with
            | zero =>
                cases hy
                rw [hx] at hp
                cases hp
            | succ k =>
                rw [hnone y (List.mem_of_getElem? (by simpa using hy))] at hp
                cases hp

end DeltaX.Support.Numbering
