import Mathlib.Data.Finset.Card
import Mathlib.Data.List.Nodup
import Mathlib.Logic.Function.Basic
import Mathlib.Order.Interval.Finset.Nat
import Mathlib.Algebra.Order.BigOperators.Group.Finset
/-!
# Lists of linked cells

A pointer field is a function from addresses to addresses.  `Linked` says that
following a field from an address visits the cells of a list and ends at the null
address.  A doubly linked list is linked one way from its head and the other way from
its tail, so that every fact about its ends is proved once.
-/

namespace DeltaX.Support

variable {α : Type*}

/-- Following `next` from `p` visits `cells` and ends at `null`. -/
def Linked (null : α) (next : α → α) : α → List α → Prop
  | p, [] => p = null
  | p, x :: xs => p = x ∧ x ≠ null ∧ Linked null next (next x) xs

namespace Linked

variable {null : α} {next next' : α → α} {p q x : α} {xs ys : List α}

theorem ne_null (h : Linked null next p xs) : ∀ y ∈ xs, y ≠ null := by
  induction xs generalizing p with
  | nil => simp
  | cons z xs ih =>
      obtain ⟨-, hz, hrest⟩ := h
      intro y hy
      rcases List.mem_cons.mp hy with rfl | hy
      · exact hz
      · exact ih hrest y hy

theorem eq_nil (h : Linked null next null xs) : xs = [] := by
  cases xs with
  | nil => rfl
  | cons z xs => exact absurd h.1.symm h.2.1

/-- The first cell, or null. -/
theorem start_eq (h : Linked null next p xs) : p = xs.head?.getD null := by
  cases xs with
  | nil => exact h
  | cons z xs => exact h.1

/-- Cells whose links did not change are linked as before. -/
theorem congr (h : Linked null next p xs) (hsame : ∀ y ∈ xs, next' y = next y) :
    Linked null next' p xs := by
  induction xs generalizing p with
  | nil => exact h
  | cons z xs ih =>
      obtain ⟨rfl, hz, hrest⟩ := h
      refine ⟨rfl, hz, ?_⟩
      rw [hsame p (by simp)]
      exact ih hrest fun y hy => hsame y (by simp [hy])

/-- A link is followed to the rest of the list. -/
theorem drop (h : Linked null next p (xs ++ x :: ys)) : Linked null next (next x) ys := by
  induction xs generalizing p with
  | nil => exact h.2.2
  | cons z xs ih => exact ih h.2.2

theorem next_eq (h : Linked null next p (xs ++ x :: ys)) : next x = ys.head?.getD null :=
  h.drop.start_eq

/-- Following a field from one address visits one list only. -/
theorem unique (h : Linked null next p xs) (h' : Linked null next p ys) : xs = ys := by
  induction xs generalizing p ys with
  | nil => exact (eq_nil (h ▸ h')).symm
  | cons z xs ih =>
      obtain ⟨rfl, hz, hrest⟩ := h
      cases ys with
      | nil => exact absurd h' hz
      | cons w ys =>
          obtain ⟨rfl, -, hrest'⟩ := h'
          rw [ih hrest hrest']

variable [DecidableEq α]

/-- A write to a cell outside the list. -/
theorem update_of_notMem (h : Linked null next p xs) (hx : x ∉ xs) (v : α) :
    Linked null (Function.update next x v) p xs :=
  h.congr fun _ hy => Function.update_of_ne (ne_of_mem_of_not_mem hy hx) _ _

/-- A new first cell. -/
theorem cons (h : Linked null next p xs) (hnull : x ≠ null) (hx : x ∉ xs) :
    Linked null (Function.update next x p) x (x :: xs) := by
  refine ⟨rfl, hnull, ?_⟩
  rw [Function.update_self]
  exact h.update_of_notMem hx p

/-- A new last cell behind the last one. -/
theorem snoc {last : α} (h : Linked null next p (xs ++ [last])) (hnull : x ≠ null)
    (hx : x ∉ xs ++ [last]) (hlast : last ∉ xs) (hnext : next x = null) :
    Linked null (Function.update next last x) p (xs ++ [last] ++ [x]) := by
  induction xs generalizing p with
  | nil =>
      obtain ⟨rfl, hp, -⟩ := h
      have hxp : x ≠ p := by simpa using hx
      refine ⟨rfl, hp, Function.update_self _ _ _, hnull, ?_⟩
      rw [Function.update_of_ne hxp]
      exact hnext
  | cons z xs ih =>
      obtain ⟨rfl, hp, hrest⟩ := h
      rw [List.mem_cons, not_or] at hlast
      refine ⟨rfl, hp, ?_⟩
      rw [Function.update_of_ne (Ne.symm hlast.1)]
      exact ih hrest (fun hmem => hx (by simp_all)) hlast.2

/-- Unlinking the cell behind `pred`. -/
theorem unlink {pred : α} (h : Linked null next p (xs ++ pred :: x :: ys))
    (hpred : pred ∉ xs) (hys : pred ∉ ys) :
    Linked null (Function.update next pred (next x)) p (xs ++ pred :: ys) := by
  induction xs generalizing p with
  | nil =>
      obtain ⟨rfl, hp, rfl, -, hrest⟩ := h
      refine ⟨rfl, hp, ?_⟩
      rw [Function.update_self]
      exact hrest.update_of_notMem hys _
  | cons z xs ih =>
      obtain ⟨rfl, hp, hrest⟩ := h
      rw [List.mem_cons, not_or] at hpred
      refine ⟨rfl, hp, ?_⟩
      rw [Function.update_of_ne (Ne.symm hpred.1)]
      exact ih hrest hpred.2

end Linked

/-! ## Doubly linked lists -/

/-- Linked by `next` from `head` and by `prev` from `tail`. -/
structure DoublyLinked (null : α) (next prev : α → α) (head tail : α) (cells : List α) : Prop where
  forward : Linked null next head cells
  backward : Linked null prev tail cells.reverse

namespace DoublyLinked

variable {null : α} {next prev : α → α} {head tail x : α} {xs ys : List α}

theorem prev_eq (h : DoublyLinked null next prev head tail (xs ++ x :: ys)) :
    prev x = xs.getLast?.getD null := by
  have hback := h.backward
  rw [List.reverse_append, List.reverse_cons, List.append_assoc, List.singleton_append] at hback
  rw [hback.next_eq, List.head?_reverse]

theorem next_eq (h : DoublyLinked null next prev head tail (xs ++ x :: ys)) :
    next x = ys.head?.getD null :=
  h.forward.next_eq

theorem congr {next' prev' : α → α} (h : DoublyLinked null next prev head tail xs)
    (hnext : ∀ y ∈ xs, next' y = next y) (hprev : ∀ y ∈ xs, prev' y = prev y) :
    DoublyLinked null next' prev' head tail xs :=
  ⟨h.forward.congr hnext, h.backward.congr fun y hy => hprev y (List.mem_reverse.mp hy)⟩

theorem empty (null : α) (next prev : α → α) : DoublyLinked null next prev null null [] :=
  ⟨rfl, rfl⟩

variable [DecidableEq α]

/-- A new first cell: the old head is linked back to it, an empty list gets it as its
tail. -/
theorem prepend (h : DoublyLinked null next prev head tail xs) (hnodup : xs.Nodup)
    (hnull : x ≠ null) (hx : x ∉ xs) :
    DoublyLinked null (Function.update next x head)
      (if head = null then Function.update prev x null
        else Function.update (Function.update prev x null) head x)
      x (if head = null then x else tail) (x :: xs) := by
  refine ⟨h.forward.cons hnull hx, ?_⟩
  rw [List.reverse_cons]
  cases xs with
  | nil =>
      have hhead : head = null := h.forward
      rw [if_pos hhead, if_pos hhead]
      exact ⟨rfl, hnull, Function.update_self _ _ _⟩
  | cons y ys =>
      obtain ⟨rfl, hne, -⟩ := h.forward
      have hback := h.backward
      rw [List.nodup_cons] at hnodup
      rw [if_neg hne, if_neg hne]
      rw [List.reverse_cons] at hback ⊢
      have hx' : x ∉ ys.reverse ++ [head] := by simpa [or_comm] using hx
      apply (hback.update_of_notMem hx' null).snoc hnull hx'
      · simpa using hnodup.1
      · exact Function.update_self _ _ _

/-- Unlinking a cell: its neighbours, or the ends of the list, are linked past it. -/
theorem remove (h : DoublyLinked null next prev head tail (xs ++ x :: ys))
    (hnodup : (xs ++ x :: ys).Nodup) :
    DoublyLinked null
      (if prev x = null then next else Function.update next (prev x) (next x))
      (if next x = null then prev else Function.update prev (next x) (prev x))
      (if prev x = null then next x else head)
      (if next x = null then prev x else tail) (xs ++ ys) := by
  have hprev := h.prev_eq
  have hnext := h.next_eq
  have hnull := h.forward.ne_null
  rw [List.nodup_append, List.nodup_cons] at hnodup
  obtain ⟨hxs, ⟨hx, hys⟩, hdisj⟩ := hnodup
  constructor
  · rcases List.eq_nil_or_concat' xs with rfl | ⟨ws, w, rfl⟩
    · have hhead : prev x = null := hprev
      rw [if_pos hhead, if_pos hhead]
      exact h.forward.drop
    · have hw : prev x = w := by simpa using hprev
      have hne : prev x ≠ null := hw ▸ hnull w (by simp)
      rw [if_neg hne, if_neg hne, hw, List.append_assoc, List.singleton_append]
      have hforward := h.forward
      rw [List.append_assoc, List.singleton_append] at hforward
      apply hforward.unlink
      · rw [List.nodup_append] at hxs
        exact fun hmem => hxs.2.2 w hmem w (by simp) rfl
      · exact fun hmem => hdisj w (by simp) w (by simp [hmem]) rfl
  · have hback := h.backward
    rw [List.reverse_append, List.reverse_cons, List.append_assoc, List.singleton_append] at hback
    rw [List.reverse_append]
    cases ys with
    | nil =>
        have htail : next x = null := hnext
        rw [if_pos htail, if_pos htail]
        exact hback.drop
    | cons y ys =>
        have hy : next x = y := hnext
        have hne : next x ≠ null := hy ▸ hnull y (by simp)
        rw [if_neg hne, if_neg hne, hy, List.reverse_cons, List.append_assoc,
          List.singleton_append]
        rw [List.reverse_cons, List.append_assoc, List.singleton_append] at hback
        apply hback.unlink
        · simpa using (List.nodup_cons.mp hys).1
        · rw [List.mem_reverse]
          exact fun hmem => hdisj y hmem y (by simp) rfl

end DoublyLinked

/-! ## Cells in a bounded memory -/

/-- Cells of `size` addresses each that do not overlap and lie below `area` are at most
`area / size` many. -/
theorem length_mul_le_of_disjoint {cells : List ℕ} {size area : ℕ} (hnodup : cells.Nodup)
    (hin : ∀ p ∈ cells, p + size ≤ area)
    (hdisj : ∀ p ∈ cells, ∀ q ∈ cells, p ≠ q → p + size ≤ q ∨ q + size ≤ p) :
    cells.length * size ≤ area := by
  have hpairwise : (cells.toFinset : Set ℕ).PairwiseDisjoint fun p => Finset.Ico p (p + size) := by
    intro p hp q hq hne
    have hcases := hdisj p (by simpa using hp) q (by simpa using hq) hne
    rw [Function.onFun, Finset.disjoint_left]
    intro a ha ha'
    rw [Finset.mem_Ico] at ha ha'
    omega
  calc cells.length * size = ∑ p ∈ cells.toFinset, (Finset.Ico p (p + size)).card := by
        simp [List.toFinset_card_of_nodup hnodup]
    _ = (cells.toFinset.biUnion fun p => Finset.Ico p (p + size)).card :=
        (Finset.card_biUnion hpairwise).symm
    _ ≤ (Finset.range area).card := by
        apply Finset.card_le_card
        intro a ha
        simp only [Finset.mem_biUnion, List.mem_toFinset, Finset.mem_Ico] at ha
        obtain ⟨p, hp, hlo, hhi⟩ := ha
        have hbound := hin p hp
        rw [Finset.mem_range]
        omega
    _ = area := Finset.card_range area

end DeltaX.Support
