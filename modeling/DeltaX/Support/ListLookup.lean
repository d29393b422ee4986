import Mathlib.Data.List.Nodup
import Mathlib.Logic.Function.Basic
/-!
# Lookups in lists

Finding an element by a key that is unique in the list, maps that may fail, and
maps from keys that a loop over a list fills.
-/

namespace DeltaX.Support.ListLookup

variable {α β κ : Type*}

theorem find?_key [DecidableEq κ] (key : α → κ) {xs : List α} (hnodup : (xs.map key).Nodup)
    {x : α} (hx : x ∈ xs) : (xs.find? fun y => decide (key y = key x)) = some x := by
  cases hfind : xs.find? fun y => decide (key y = key x) with
  | none =>
      have := List.find?_eq_none.mp hfind x hx
      simp at this
  | some y =>
      have hmem := List.mem_of_find?_eq_some hfind
      have hkey : key y = key x := by simpa using List.find?_some hfind
      rw [List.inj_on_of_nodup_map hnodup hmem hx hkey]

theorem mapM_eq_pure {m : Type u → Type v} {α : Type w} {β : Type u} [Monad m] [LawfulMonad m]
    {f : α → m β} {g : α → β} {xs : List α} (h : ∀ x ∈ xs, f x = pure (g x)) :
    xs.mapM f = pure (xs.map g) := by
  induction xs with
  | nil => simp
  | cons x xs ih =>
      have hx := h x List.mem_cons_self
      have hxs := ih fun y hy => h y (List.mem_cons_of_mem _ hy)
      simp [List.mapM_cons, hx, hxs]

/-- A loop over the indices of a list that finds each element. -/
theorem mapM_range {f : ℕ → Option β} {xs : List β} (h : ∀ i x, xs[i]? = some x → f i = some x) :
    (List.range xs.length).mapM f = some xs := by
  induction xs generalizing f with
  | nil => rfl
  | cons x xs ih =>
      have hhead : f 0 = some x := h 0 x rfl
      have htail : (List.range xs.length).mapM (fun i => f (i + 1)) = some xs :=
        ih fun i y hy => h (i + 1) y hy
      rw [List.length_cons, List.range_succ_eq_map, List.mapM_cons, hhead, List.mapM_map]
      show ((List.range xs.length).mapM fun i => f (i + 1)).bind _ = _
      rw [htail]
      rfl

theorem exists_of_mapM {f : α → Option β} {xs : List α} {ys : List β}
    (h : xs.mapM f = some ys) {x : α} (hx : x ∈ xs) : ∃ y ∈ ys, f x = some y := by
  induction xs generalizing ys with
  | nil => cases hx
  | cons z xs ih =>
      rw [List.mapM_cons] at h
      obtain ⟨y, hy, h⟩ := Option.bind_eq_some_iff.mp h
      obtain ⟨rest, hrest, h⟩ := Option.bind_eq_some_iff.mp h
      cases h
      rcases List.mem_cons.mp hx with rfl | hx
      · exact ⟨y, List.mem_cons_self, hy⟩
      · obtain ⟨y', hmem, hy'⟩ := ih hrest hx
        exact ⟨y', List.mem_cons_of_mem _ hmem, hy'⟩

theorem forall₂_of_mapM {f : α → Option β} {xs : List α} {ys : List β}
    (h : xs.mapM f = some ys) : List.Forall₂ (fun x y => f x = some y) xs ys := by
  induction xs generalizing ys with
  | nil =>
      cases h
      exact .nil
  | cons x xs ih =>
      rw [List.mapM_cons] at h
      obtain ⟨y, hy, h⟩ := Option.bind_eq_some_iff.mp h
      obtain ⟨rest, hrest, h⟩ := Option.bind_eq_some_iff.mp h
      cases h
      exact .cons hy (ih hrest)

theorem length_of_mapM {f : α → Option β} {xs : List α} {ys : List β}
    (h : xs.mapM f = some ys) : ys.length = xs.length :=
  (forall₂_of_mapM h).length_eq.symm

theorem filterMap_of_mapM {f : α → Option β} {xs : List α} {ys : List β}
    (h : xs.mapM f = some ys) : xs.filterMap f = ys := by
  have hpairs := forall₂_of_mapM h
  clear h
  induction hpairs with
  | nil => rfl
  | cons hxy _ ih => rw [List.filterMap_cons_some hxy, ih]

theorem flatMap_filter {p : α → Bool} {f : α → List β} {xs : List α}
    (h : ∀ x ∈ xs, p x = false → f x = []) : (xs.filter p).flatMap f = xs.flatMap f := by
  induction xs with
  | nil => rfl
  | cons x xs ih =>
      have hxs := ih fun y hy => h y (List.mem_cons_of_mem _ hy)
      cases hx : p x with
      | true => simp [hx, hxs]
      | false => simp [hx, hxs, h x List.mem_cons_self hx]

theorem mapIdx_eq_map_idxOf [DecidableEq α] {xs : List α} (hnodup : xs.Nodup) (f : ℕ → α → β) :
    xs.mapIdx f = xs.map fun x => f (xs.idxOf x) x := by
  apply List.ext_getElem
  · simp
  · intro i hi _
    simp [hnodup.idxOf_getElem]

/-! ## Maps filled by a loop -/

section updateAll

variable [DecidableEq κ] {key : α → κ} {value : α → β} {f : κ → Option β} {xs : List α}

/-- Enter every element under its key; a later one replaces an earlier one. -/
def updateAll (key : α → κ) (value : α → β) (f : κ → Option β) (xs : List α) : κ → Option β :=
  xs.foldl (fun f x => Function.update f (key x) (some (value x))) f

@[simp] theorem updateAll_cons (x : α) :
    updateAll key value f (x :: xs) =
      updateAll key value (Function.update f (key x) (some (value x))) xs := rfl

theorem updateAll_of_notMem {k : κ} (h : ∀ x ∈ xs, key x ≠ k) :
    updateAll key value f xs k = f k := by
  induction xs generalizing f with
  | nil => rfl
  | cons x xs ih =>
      have hne := (h x List.mem_cons_self).symm
      rw [updateAll_cons, ih fun y hy => h y (List.mem_cons_of_mem _ hy),
        Function.update_of_ne hne]

theorem updateAll_of_mem (hnodup : (xs.map key).Nodup) {x : α} (hx : x ∈ xs) :
    updateAll key value f xs (key x) = some (value x) := by
  induction xs generalizing f with
  | nil => cases hx
  | cons y xs ih =>
      rw [List.map_cons, List.nodup_cons] at hnodup
      rw [updateAll_cons]
      rcases List.mem_cons.mp hx with rfl | hx
      · rw [updateAll_of_notMem, Function.update_self]
        intro z hz hkey
        exact hnodup.1 (hkey ▸ List.mem_map_of_mem hz)
      · exact ih hnodup.2 hx

theorem exists_of_updateAll {k : κ} {b : β} (h : updateAll key value f xs k = some b) :
    f k = some b ∨ ∃ x ∈ xs, key x = k ∧ value x = b := by
  induction xs generalizing f with
  | nil => exact .inl h
  | cons x xs ih =>
      rw [updateAll_cons] at h
      obtain h | ⟨y, hy, hkey, hvalue⟩ := ih h
      · by_cases hk : k = key x
        · subst hk
          rw [Function.update_self, Option.some.injEq] at h
          exact .inr ⟨x, List.mem_cons_self, rfl, h⟩
        · rw [Function.update_of_ne hk] at h
          exact .inl h
      · exact .inr ⟨y, List.mem_cons_of_mem _ hy, hkey, hvalue⟩

end updateAll

/-! ## Maps that may fail with an error -/

section errors

variable {ε : Type*}

theorem mapM_flatten_eq_ok_iff {f : α → Except ε (List β)} {g : α → List β}
    (hlen : ∀ x ys, f x = .ok ys → ys.length = (g x).length) (xs : List α) :
    (do let yss ← xs.mapM f; return yss.flatten : Except ε (List β)) = .ok (xs.flatMap g) ↔
      ∀ x ∈ xs, f x = .ok (g x) := by
  induction xs with
  | nil => simp [pure, Except.pure, bind, Except.bind]
  | cons x xs ih =>
      rw [List.forall_mem_cons, ← ih, List.mapM_cons]
      cases hx : f x with
      | error e => simp [bind, Except.bind]
      | ok ys =>
          cases hxs : xs.mapM f with
          | error e => simp [bind, Except.bind]
          | ok yss =>
              have hsplit : ys ++ yss.flatten = g x ++ xs.flatMap g ↔
                  ys = g x ∧ yss.flatten = xs.flatMap g := by
                constructor
                · intro h
                  exact List.append_inj h (hlen x ys hx)
                · rintro ⟨h, h'⟩
                  rw [h, h']
              simpa [bind, Except.bind, pure, Except.pure] using hsplit

theorem mapM_eq_ok_iff {f : α → Except ε β} {g : α → β} (xs : List α) :
    xs.mapM f = .ok (xs.map g) ↔ ∀ x ∈ xs, f x = .ok (g x) := by
  induction xs with
  | nil => simp [pure, Except.pure]
  | cons x xs ih =>
      rw [List.forall_mem_cons, ← ih, List.mapM_cons]
      cases f x with
      | error e => simp [bind, Except.bind]
      | ok y =>
          cases xs.mapM f with
          | error e => simp [bind, Except.bind]
          | ok ys => simp [bind, Except.bind, pure, Except.pure]

theorem length_of_mapM_ok {f : α → Except ε β} {xs : List α} {ys : List β}
    (h : xs.mapM f = .ok ys) : ys.length = xs.length := by
  induction xs generalizing ys with
  | nil =>
      cases h
      rfl
  | cons x xs ih =>
      rw [List.mapM_cons] at h
      cases hx : f x with
      | error e => simp [hx, bind, Except.bind] at h
      | ok y =>
          cases hxs : xs.mapM f with
          | error e => simp [hx, hxs, bind, Except.bind] at h
          | ok zs =>
              simp only [hx, hxs, bind, Except.bind, pure, Except.pure, Except.ok.injEq] at h
              rw [← h, List.length_cons, List.length_cons, ih hxs]

end errors

end DeltaX.Support.ListLookup
