import Mathlib.Algebra.BigOperators.Group.List.Basic
import Mathlib.Data.List.Induction
import Mathlib.Order.MinMax
/-!
# Strict folds

Values that may be absent are folded with an operation that skips the absent ones and takes
the first present one as it is.  Over an operation that associates and commutes, the fold of
the parts is the fold of the whole.
-/

namespace DeltaX.Support.StrictFold

variable {α β : Type*}

def strictFold (op : α → α → α) (xs : List (Option α)) : Option α :=
  xs.foldl (Option.merge op) none

theorem strictFold_eq_none_iff {op : α → α → α} {xs : List (Option α)} :
    strictFold op xs = none ↔ ∀ x ∈ xs, x = none := by
  have hfrom : ∀ init : Option α,
      xs.foldl (Option.merge op) init = none ↔ init = none ∧ ∀ x ∈ xs, x = none := by
    induction xs with
    | nil => simp
    | cons x xs ih =>
        intro init
        rw [List.foldl_cons, ih, Option.merge_eq_none_iff, List.forall_mem_cons, and_assoc]
  exact (hfrom none).trans (and_iff_right rfl)

section associative

variable (op : α → α → α) [Std.Associative op]

/-- A fold that starts from a value puts it in front. -/
theorem foldl_merge (init : Option α) (xs : List (Option α)) :
    xs.foldl (Option.merge op) init = Option.merge op init (strictFold op xs) := by
  induction xs generalizing init with
  | nil => exact (Option.merge_none_right).symm
  | cons x xs ih =>
      rw [strictFold, List.foldl_cons, List.foldl_cons, ih, ih, Option.merge_none_left]
      exact Std.Associative.assoc _ _ _

theorem strictFold_cons (x : Option α) (xs : List (Option α)) :
    strictFold op (x :: xs) = Option.merge op x (strictFold op xs) := by
  rw [strictFold, List.foldl_cons, foldl_merge, Option.merge_none_left]

end associative

section order

variable [LinearOrder α]

theorem strictFold_min_eq_some_iff {xs : List (Option α)} {m : α} :
    strictFold min xs = some m ↔ some m ∈ xs ∧ ∀ x, some x ∈ xs → m ≤ x := by
  induction xs generalizing m with
  | nil => simp [strictFold]
  | cons x xs ih =>
      rw [strictFold_cons]
      cases hfold : strictFold min xs with
      | none =>
          rw [strictFold_eq_none_iff] at hfold
          have hnot : ∀ y, some y ∉ xs := fun y hy => by cases hfold _ hy
          rw [Option.merge_none_right]
          constructor
          · rintro rfl
            refine ⟨List.mem_cons_self, fun y hy => ?_⟩
            rcases List.mem_cons.mp hy with heq | hy
            · exact (Option.some.inj heq).ge
            · exact (hnot y hy).elim
          · rintro ⟨hm, -⟩
            rcases List.mem_cons.mp hm with heq | hm
            · exact heq.symm
            · exact (hnot m hm).elim
      | some least =>
          obtain ⟨hleast, hle⟩ := ih.mp hfold
          cases x with
          | none =>
              rw [Option.merge_none_left, Option.some.injEq]
              simp only [List.mem_cons, reduceCtorEq, false_or]
              constructor
              · rintro rfl
                exact ⟨hleast, hle⟩
              · rintro ⟨hm, hle'⟩
                exact le_antisymm (hle m hm) (hle' least hleast)
          | some v =>
              rw [Option.merge_some_some, Option.some.injEq]
              simp only [List.mem_cons, Option.some.injEq]
              constructor
              · rintro rfl
                refine ⟨?_, ?_⟩
                · rcases min_choice v least with h | h
                  · exact Or.inl h
                  · exact Or.inr (h.symm ▸ hleast)
                · rintro y (rfl | hy)
                  · exact min_le_left _ _
                  · exact (min_le_right _ _).trans (hle y hy)
              · rintro ⟨hm, hle'⟩
                apply le_antisymm
                · rcases hm with rfl | hm
                  · exact min_le_left _ _
                  · exact (min_le_right _ _).trans (hle m hm)
                · exact le_min (hle' v (Or.inl rfl)) (hle' least (Or.inr hleast))

def LeastAgrees (first other : LinearOrder α) (xs : List (Option α)) : Prop :=
  ∀ m, some m ∈ xs → (∀ x, some x ∈ xs → first.le m x) → ∀ x, some x ∈ xs → other.le m x

omit [LinearOrder α] in
theorem strictFold_min_eq_iff (first other : LinearOrder α) (xs : List (Option α)) :
    strictFold other.min xs = strictFold first.min xs ↔ LeastAgrees first other xs := by
  constructor
  · intro h m hm hle
    rw [(@strictFold_min_eq_some_iff α first _ _).mpr ⟨hm, hle⟩] at h
    exact ((@strictFold_min_eq_some_iff α other _ _).mp h).2
  · intro h
    cases hfold : strictFold first.min xs with
    | none =>
        rw [strictFold_eq_none_iff] at hfold ⊢
        exact hfold
    | some m =>
        obtain ⟨hm, hle⟩ := (@strictFold_min_eq_some_iff α first _ _).mp hfold
        exact (@strictFold_min_eq_some_iff α other _ _).mpr ⟨hm, h m hm hle⟩

omit [LinearOrder α] in
/-- Where one value is least in two orders, folding the parts in one order and the results
in the other finds it. -/
theorem strictFold_parts_min (first other : LinearOrder α) {input : β → Option α}
    {parts : List (List β)} {whole : List β} (h : parts.flatten.Perm whole)
    (hagree : LeastAgrees first other (whole.map input)) :
    strictFold other.min ((parts.filter fun part => !part.isEmpty).map fun part =>
      strictFold first.min (part.map input)) = strictFold first.min (whole.map input) := by
  have hsub : ∀ part ∈ parts.filter fun part => !part.isEmpty, ∀ b ∈ part, b ∈ whole :=
    fun part hpart b hb =>
      h.subset (List.mem_flatten.mpr ⟨part, List.mem_of_mem_filter hpart, hb⟩)
  have hother := (strictFold_min_eq_iff first other _).mpr hagree
  cases hfold : strictFold first.min (whole.map input) with
  | none =>
      rw [strictFold_eq_none_iff, List.forall_mem_map] at hfold
      rw [strictFold_eq_none_iff, List.forall_mem_map]
      intro part hpart
      rw [strictFold_eq_none_iff, List.forall_mem_map]
      exact fun b hb => hfold b (hsub part hpart b hb)
  | some m =>
      rw [hfold] at hother
      obtain ⟨hm, hle⟩ := (@strictFold_min_eq_some_iff α first _ _).mp hfold
      obtain ⟨-, hle'⟩ := (@strictFold_min_eq_some_iff α other _ _).mp hother
      apply (@strictFold_min_eq_some_iff α other _ _).mpr
      constructor
      · obtain ⟨b, hb, hinput⟩ := List.mem_map.mp hm
        obtain ⟨part, hpart, hmem⟩ := List.mem_flatten.mp (h.mem_iff.mpr hb)
        have hne : part ∈ parts.filter fun part => !part.isEmpty :=
          List.mem_filter.mpr ⟨hpart, by simpa using List.ne_nil_of_mem hmem⟩
        refine List.mem_map.mpr ⟨part, hne, ?_⟩
        apply (@strictFold_min_eq_some_iff α first _ _).mpr
        refine ⟨List.mem_map.mpr ⟨b, hmem, hinput⟩, fun x hx => ?_⟩
        obtain ⟨b', hb', heq⟩ := List.mem_map.mp hx
        exact hle x (List.mem_map.mpr ⟨b', hsub part hne b' hb', heq⟩)
      · intro x hx
        obtain ⟨part, hpart, hpartfold⟩ := List.mem_map.mp hx
        obtain ⟨b, hb, heq⟩ :=
          List.mem_map.mp ((@strictFold_min_eq_some_iff α first _ _).mp hpartfold).1
        exact hle' x (List.mem_map.mpr ⟨b, hsub part hpart b hb, heq⟩)

end order

section sum

variable [AddCommMonoid α]

theorem getD_strictFold_add (xs : List (Option α)) :
    (strictFold (· + ·) xs).getD 0 = (xs.map fun x => x.getD 0).sum := by
  induction xs with
  | nil => rfl
  | cons x xs ih =>
      rw [strictFold_cons, List.map_cons, List.sum_cons, ← ih]
      cases x <;> cases strictFold (· + ·) xs <;> simp

/-- Present values only. -/
theorem strictFold_map_some (xs : List α) (hne : xs ≠ []) :
    strictFold (· + ·) (xs.map some) = some xs.sum := by
  induction xs with
  | nil => exact (hne rfl).elim
  | cons x xs ih =>
      rw [List.map_cons, strictFold_cons]
      cases xs with
      | nil => simp [strictFold]
      | cons y ys => rw [ih (List.cons_ne_nil y ys), Option.merge_some_some, ← List.sum_cons]

/-- A fold of present values that starts at zero is their sum. -/
theorem foldl_merge_some (xs : List α) :
    (xs.map some).foldl (Option.merge (· + ·)) (some 0) = some xs.sum := by
  rw [foldl_merge]
  cases xs with
  | nil => rfl
  | cons x xs => rw [strictFold_map_some _ (List.cons_ne_nil x xs), Option.merge_some_some, zero_add]

/-- A running sum with the number of values in it. -/
def addCounted (acc : α × ℕ) (x : Option α) : α × ℕ :=
  match x with
  | some v => (acc.1 + v, acc.2 + 1)
  | none => acc

theorem strictFold_snoc (xs : List (Option α)) (x : Option α) :
    strictFold (· + ·) (xs ++ [x]) = Option.merge (· + ·) (strictFold (· + ·) xs) x := by
  rw [strictFold, List.foldl_append]
  rfl

theorem foldl_addCounted (xs : List (Option α)) :
    (xs.foldl addCounted (0, 0)).1 = (strictFold (· + ·) xs).getD 0 ∧
      ((xs.foldl addCounted (0, 0)).2 = 0 ↔ strictFold (· + ·) xs = none) := by
  induction xs using List.reverseRecOn with
  | nil => exact ⟨rfl, iff_of_true rfl rfl⟩
  | append_singleton xs x ih =>
      obtain ⟨hsum, hcount⟩ := ih
      rw [List.foldl_append, strictFold_snoc]
      cases x with
      | none =>
          rw [Option.merge_none_right]
          exact ⟨hsum, hcount⟩
      | some v =>
          constructor
          · show (xs.foldl addCounted (0, 0)).1 + v = _
            rw [hsum]
            cases strictFold (· + ·) xs <;> simp
          · show (xs.foldl addCounted (0, 0)).2 + 1 = 0 ↔ _
            cases strictFold (· + ·) xs <;> simp

theorem foldl_addCounted_value (xs : List (Option α)) :
    (if (xs.foldl addCounted (0, 0)).2 = 0 then none else some (xs.foldl addCounted (0, 0)).1) =
      strictFold (· + ·) xs := by
  obtain ⟨hsum, hcount⟩ := foldl_addCounted xs
  split_ifs with h
  · exact (hcount.mp h).symm
  · rw [hsum]
    cases hfold : strictFold (· + ·) xs with
    | none => exact (h (hcount.mpr hfold)).elim
    | some v => rfl

end sum

end DeltaX.Support.StrictFold
