import Mathlib.Order.MinMax
import Mathlib.Order.OrderDual
import Mathlib.Data.List.Basic
import Mathlib.Tactic.Push
/-!
# Spans of keys and pruning by a span

A list of keys from a linear order is summarised by its least and its greatest
element.  The first half of this module says what the summary decides about the
keys themselves.

The second half is about values that are compared through a `rank` but
summarised through a `key`.  A span of keys answers questions about ranks
exactly as far as the two orders agree, and the two ways in which they can
disagree about a pair, `Tied` and `Inverted`, are all that can go wrong.
-/

namespace DeltaX.Support.KeySpan

variable {ι α β : Type*} [LinearOrder α] [LinearOrder β]

/-- `lo` and `hi` are the least and the greatest element of `keys`. -/
structure IsSpan (keys : List α) (lo hi : α) : Prop where
  lo_mem : lo ∈ keys
  hi_mem : hi ∈ keys
  lo_le : ∀ k ∈ keys, lo ≤ k
  le_hi : ∀ k ∈ keys, k ≤ hi

namespace IsSpan

variable {keys : List α} {lo hi : α}

theorem exists_lt_iff (h : IsSpan keys lo hi) (c : α) :
    (∃ k ∈ keys, k < c) ↔ lo < c := by
  constructor
  · rintro ⟨k, hk, hlt⟩
    exact (h.lo_le k hk).trans_lt hlt
  · intro hlt
    exact ⟨lo, h.lo_mem, hlt⟩

theorem exists_le_iff (h : IsSpan keys lo hi) (c : α) :
    (∃ k ∈ keys, k ≤ c) ↔ lo ≤ c := by
  constructor
  · rintro ⟨k, hk, hle⟩
    exact (h.lo_le k hk).trans hle
  · intro hle
    exact ⟨lo, h.lo_mem, hle⟩

theorem exists_gt_iff (h : IsSpan keys lo hi) (c : α) :
    (∃ k ∈ keys, c < k) ↔ c < hi := by
  constructor
  · rintro ⟨k, hk, hlt⟩
    exact hlt.trans_le (h.le_hi k hk)
  · intro hlt
    exact ⟨hi, h.hi_mem, hlt⟩

theorem exists_ge_iff (h : IsSpan keys lo hi) (c : α) :
    (∃ k ∈ keys, c ≤ k) ↔ c ≤ hi := by
  constructor
  · rintro ⟨k, hk, hle⟩
    exact hle.trans (h.le_hi k hk)
  · intro hle
    exact ⟨hi, h.hi_mem, hle⟩

theorem forall_eq_iff (h : IsSpan keys lo hi) (c : α) :
    (∀ k ∈ keys, k = c) ↔ lo = c ∧ hi = c := by
  constructor
  · intro hall
    exact ⟨hall lo h.lo_mem, hall hi h.hi_mem⟩
  · rintro ⟨rfl, hhi⟩ k hk
    exact le_antisymm (hhi ▸ h.le_hi k hk) (h.lo_le k hk)

theorem append_singleton (h : IsSpan keys lo hi) (c : α) :
    IsSpan (keys ++ [c]) (min lo c) (max hi c) where
  lo_mem := by
    rcases min_choice lo c with hmin | hmin <;> simp [hmin, h.lo_mem]
  hi_mem := by
    rcases max_choice hi c with hmax | hmax <;> simp [hmax, h.hi_mem]
  lo_le := by
    intro k hk
    rcases List.mem_append.mp hk with hk | hk
    · exact (min_le_left lo c).trans (h.lo_le k hk)
    · rw [List.mem_singleton.mp hk]
      exact min_le_right lo c
  le_hi := by
    intro k hk
    rcases List.mem_append.mp hk with hk | hk
    · exact (h.le_hi k hk).trans (le_max_left hi c)
    · rw [List.mem_singleton.mp hk]
      exact le_max_right hi c

/-- Keys have one span. -/
theorem unique {lo' hi' : α} (h : IsSpan keys lo hi) (h' : IsSpan keys lo' hi') :
    lo = lo' ∧ hi = hi' :=
  ⟨le_antisymm (h.lo_le lo' h'.lo_mem) (h'.lo_le lo h.lo_mem),
    le_antisymm (h'.le_hi hi h.hi_mem) (h.le_hi hi' h'.hi_mem)⟩

theorem map {f : α → β} (h : IsSpan keys lo hi) (hf : Monotone f) :
    IsSpan (keys.map f) (f lo) (f hi) where
  lo_mem := List.mem_map_of_mem h.lo_mem
  hi_mem := List.mem_map_of_mem h.hi_mem
  lo_le := by
    intro k hk
    obtain ⟨key, hkey, rfl⟩ := List.mem_map.mp hk
    exact hf (h.lo_le key hkey)
  le_hi := by
    intro k hk
    obtain ⟨key, hkey, rfl⟩ := List.mem_map.mp hk
    exact hf (h.le_hi key hkey)

end IsSpan

def spanStep (acc : Option α × Option α) (key : α) : Option α × Option α :=
  (some (acc.1.elim key (min · key)), some (acc.2.elim key (max · key)))

/-- A summary is either empty, for no keys at all, or the span of the keys. -/
inductive Summary (keys : List α) : Option α × Option α → Prop
  | empty : keys = [] → Summary keys (none, none)
  | span {lo hi : α} : IsSpan keys lo hi → Summary keys (some lo, some hi)

theorem summary_spanStep {keys : List α} {acc : Option α × Option α} (h : Summary keys acc)
    (key : α) : Summary (keys ++ [key]) (spanStep acc key) := by
  cases h with
  | empty hkeys =>
      subst hkeys
      exact .span ⟨by simp, by simp, by simp, by simp⟩
  | span hspan => exact .span (hspan.append_singleton key)

theorem summary_foldl (done keys : List α) {acc : Option α × Option α}
    (h : Summary done acc) : Summary (done ++ keys) (keys.foldl spanStep acc) := by
  induction keys generalizing done acc with
  | nil => simpa using h
  | cons key keys ih =>
      have hstep := ih (done ++ [key]) (summary_spanStep h key)
      simpa using hstep

theorem summary_of_foldl (keys : List α) :
    Summary keys (keys.foldl spanStep (none, none)) := by
  simpa using summary_foldl [] keys (Summary.empty rfl)

/-! ## Comparisons with a constant -/

inductive Comparison
  | eq | ne | lt | le | gt | ge
deriving DecidableEq, Repr

namespace Comparison

/-- The comparison holds of `x` and the constant `c`. -/
def Holds (x c : α) : Comparison → Prop
  | eq => x = c
  | ne => x ≠ c
  | lt => x < c
  | le => x ≤ c
  | gt => c < x
  | ge => c ≤ x

instance instDecidableHolds (x c : α) : (cmp : Comparison) → Decidable (Holds x c cmp)
  | eq => inferInstanceAs (Decidable (x = c))
  | ne => inferInstanceAs (Decidable (x ≠ c))
  | lt => inferInstanceAs (Decidable (x < c))
  | le => inferInstanceAs (Decidable (x ≤ c))
  | gt => inferInstanceAs (Decidable (c < x))
  | ge => inferInstanceAs (Decidable (c ≤ x))

/-- The comparison with its two sides exchanged. -/
def flip : Comparison → Comparison
  | lt => gt
  | le => ge
  | gt => lt
  | ge => le
  | cmp => cmp

def complement : Comparison → Comparison
  | eq => ne
  | ne => eq
  | lt => ge
  | le => gt
  | gt => le
  | ge => lt

/-- As far as the span of `keys` tells, the comparison with `c` can hold. -/
def Possible (keys : List α) (c : α) : Comparison → Prop
  | eq => (∃ k ∈ keys, k ≤ c) ∧ ∃ k ∈ keys, c ≤ k
  | ne => ∃ k ∈ keys, k ≠ c
  | lt => ∃ k ∈ keys, k < c
  | le => ∃ k ∈ keys, k ≤ c
  | gt => ∃ k ∈ keys, c < k
  | ge => ∃ k ∈ keys, c ≤ k

theorem holds_flip (cmp : Comparison) (x c : α) : Holds x c cmp.flip ↔ Holds c x cmp := by
  cases cmp <;> simp [Holds, flip, eq_comm]

theorem holds_complement (cmp : Comparison) (x c : α) :
    Holds x c cmp.complement ↔ ¬ Holds x c cmp := by
  cases cmp <;> simp [Holds, complement]

end Comparison

/-! ## Comparing ranks through keys -/

section Disagreement

variable (key : ι → α) (rank : ι → β)

def Tied (v c : ι) : Prop :=
  rank v = rank c ∧ key v ≠ key c

/-- The ranks and the keys are strictly ordered in opposite ways. -/
def Inverted (v c : ι) : Prop :=
  (rank v < rank c ∧ key c < key v) ∨ (rank c < rank v ∧ key v < key c)

/-- Some value lies on each side of `c` in the order of the keys. -/
def Covered (vs : List ι) (c : ι) : Prop :=
  (∃ w ∈ vs, key w ≤ key c) ∧ ∃ w ∈ vs, key c ≤ key w

/-- The orders disagree about `c` only where the keys leave the comparison open
anyway. -/
def Faithful (vs : List ι) (c : ι) : Comparison → Prop
  | .eq | .ne => (∃ v ∈ vs, Tied key rank v c) → Covered key vs c
  | .lt | .ge =>
      ((∃ v ∈ vs, Tied key rank v c ∨ Inverted key rank v c) → ∃ w ∈ vs, key c ≤ key w) ∧
        ((∃ v ∈ vs, Inverted key rank v c) → ∃ w ∈ vs, key w < key c)
  | .gt | .le =>
      ((∃ v ∈ vs, Tied key rank v c ∨ Inverted key rank v c) → ∃ w ∈ vs, key w ≤ key c) ∧
        ((∃ v ∈ vs, Inverted key rank v c) → ∃ w ∈ vs, key c < key w)

variable {key rank}

theorem rank_lt_or_of_key_lt (rank : ι → β) {v c : ι} (h : key v < key c) :
    rank v < rank c ∨ Tied key rank v c ∨ Inverted key rank v c := by
  rcases lt_trichotomy (rank v) (rank c) with hlt | heq | hgt
  · exact .inl hlt
  · exact .inr (.inl ⟨heq, h.ne⟩)
  · exact .inr (.inr (.inr ⟨hgt, h⟩))

theorem key_lt_or_inverted_of_rank_lt (hkey : ∀ v c, key v = key c → rank v = rank c)
    {v c : ι} (h : rank v < rank c) : key v < key c ∨ Inverted key rank v c := by
  rcases lt_trichotomy (key v) (key c) with hlt | heq | hgt
  · exact .inl hlt
  · exact absurd (hkey v c heq) h.ne
  · exact .inr (.inl ⟨h, hgt⟩)

/-- A value ranked below `c` shows in the keys, unless the two orders are
inverted on some value and nothing else is keyed below `c`. -/
theorem exists_lt_iff_inverted (hkey : ∀ v c, key v = key c → rank v = rank c)
    (vs : List ι) (c : ι) :
    ((∃ v ∈ vs, rank v < rank c) → ∃ w ∈ vs, key w < key c) ↔
      ((∃ v ∈ vs, Inverted key rank v c) → ∃ w ∈ vs, key w < key c) := by
  constructor
  · rintro h ⟨v, hv, hlt | hgt⟩
    · exact h ⟨v, hv, hlt.1⟩
    · exact ⟨v, hv, hgt.2⟩
  · rintro h ⟨v, hv, hlt⟩
    rcases key_lt_or_inverted_of_rank_lt hkey hlt with hk | hinv
    · exact ⟨v, hv, hk⟩
    · exact h ⟨v, hv, hinv⟩

/-- All keys below `c` mean all ranks below `c`, unless some value is tied with
`c` or inverted against it and no key reaches `c`. -/
theorem forall_lt_iff_disagree (key : ι → α) (rank : ι → β) (vs : List ι) (c : ι) :
    ((∀ w ∈ vs, key w < key c) → ∀ v ∈ vs, rank v < rank c) ↔
      ((∃ v ∈ vs, Tied key rank v c ∨ Inverted key rank v c) →
        ∃ w ∈ vs, key c ≤ key w) := by
  constructor
  · rintro h ⟨v, hv, hdis⟩
    by_contra hnone
    push Not at hnone
    have hlt := h hnone v hv
    rcases hdis with htied | hinv | hinv
    · exact hlt.ne htied.1
    · exact lt_asymm hinv.2 (hnone v hv)
    · exact lt_asymm hinv.1 hlt
  · intro h hall v hv
    rcases rank_lt_or_of_key_lt rank (hall v hv) with hlt | hdis
    · exact hlt
    · obtain ⟨w, hw, hle⟩ := h ⟨v, hv, hdis⟩
      exact absurd (hall w hw) (not_lt.mpr hle)

omit [LinearOrder β] in
/-- A value of `c`'s rank puts `c` inside the keys, unless every such value is
tied with `c`. -/
theorem exists_eq_iff_tied (key : ι → α) (rank : ι → β) (vs : List ι) (c : ι) :
    ((∃ v ∈ vs, rank v = rank c) → Covered key vs c) ↔
      ((∃ v ∈ vs, Tied key rank v c) → Covered key vs c) := by
  constructor
  · rintro h ⟨v, hv, htied⟩
    exact h ⟨v, hv, htied.1⟩
  · rintro h ⟨v, hv, heq⟩
    by_cases hk : key v = key c
    · exact ⟨⟨v, hv, hk.le⟩, ⟨v, hv, hk.ge⟩⟩
    · exact h ⟨v, hv, heq, hk⟩

/-! The mirrored statements, from the same ones over the dual orders. -/

theorem inverted_toDual (v c : ι) :
    Inverted (OrderDual.toDual ∘ key) (OrderDual.toDual ∘ rank) v c ↔
      Inverted key rank v c := by
  simp only [Inverted, Function.comp, OrderDual.toDual_lt_toDual]
  exact or_comm

omit [LinearOrder α] [LinearOrder β] in
theorem tied_toDual (v c : ι) :
    Tied (OrderDual.toDual ∘ key) (OrderDual.toDual ∘ rank) v c ↔ Tied key rank v c := by
  simp only [Tied, Function.comp, EmbeddingLike.apply_eq_iff_eq, ne_eq]

theorem exists_gt_iff_inverted (hkey : ∀ v c, key v = key c → rank v = rank c)
    (vs : List ι) (c : ι) :
    ((∃ v ∈ vs, rank c < rank v) → ∃ w ∈ vs, key c < key w) ↔
      ((∃ v ∈ vs, Inverted key rank v c) → ∃ w ∈ vs, key c < key w) := by
  have hdual : ∀ v c, (OrderDual.toDual ∘ key) v = (OrderDual.toDual ∘ key) c →
      (OrderDual.toDual ∘ rank) v = (OrderDual.toDual ∘ rank) c :=
    fun v c hvc => congrArg OrderDual.toDual (hkey v c hvc)
  have h := exists_lt_iff_inverted hdual vs c
  simpa only [inverted_toDual, Function.comp, OrderDual.toDual_lt_toDual] using h

theorem forall_gt_iff_disagree (key : ι → α) (rank : ι → β) (vs : List ι) (c : ι) :
    ((∀ w ∈ vs, key c < key w) → ∀ v ∈ vs, rank c < rank v) ↔
      ((∃ v ∈ vs, Tied key rank v c ∨ Inverted key rank v c) →
        ∃ w ∈ vs, key w ≤ key c) := by
  have h := forall_lt_iff_disagree (OrderDual.toDual ∘ key) (OrderDual.toDual ∘ rank) vs c
  simpa only [inverted_toDual, tied_toDual, Function.comp, OrderDual.toDual_lt_toDual,
    OrderDual.toDual_le_toDual] using h

theorem exists_ge_iff_disagree (key : ι → α) (rank : ι → β) (vs : List ι) (c : ι) :
    ((∃ v ∈ vs, rank c ≤ rank v) → ∃ w ∈ vs, key c ≤ key w) ↔
      ((∃ v ∈ vs, Tied key rank v c ∨ Inverted key rank v c) →
        ∃ w ∈ vs, key c ≤ key w) := by
  rw [← forall_lt_iff_disagree, ← not_imp_not]
  push Not
  rfl

theorem exists_le_iff_disagree (key : ι → α) (rank : ι → β) (vs : List ι) (c : ι) :
    ((∃ v ∈ vs, rank v ≤ rank c) → ∃ w ∈ vs, key w ≤ key c) ↔
      ((∃ v ∈ vs, Tied key rank v c ∨ Inverted key rank v c) →
        ∃ w ∈ vs, key w ≤ key c) := by
  rw [← forall_gt_iff_disagree, ← not_imp_not]
  push Not
  rfl

omit [LinearOrder α] [LinearOrder β] in
theorem exists_ne_of_rank_ne (hkey : ∀ v c, key v = key c → rank v = rank c)
    (vs : List ι) (c : ι) (h : ∃ v ∈ vs, rank v ≠ rank c) : ∃ w ∈ vs, key w ≠ key c := by
  obtain ⟨v, hv, hne⟩ := h
  exact ⟨v, hv, fun heq => hne (hkey v c heq)⟩

/-- Answering a comparison of ranks from the keys, for the comparison itself and
for its complement, is sound exactly on faithful inputs. -/
theorem possible_sound_iff (hkey : ∀ v c, key v = key c → rank v = rank c)
    (vs : List ι) (c : ι) (cmp : Comparison) :
    (((∃ v ∈ vs, cmp.Holds (rank v) (rank c)) → cmp.Possible (vs.map key) (key c)) ∧
        ((∃ v ∈ vs, cmp.complement.Holds (rank v) (rank c)) →
          cmp.complement.Possible (vs.map key) (key c))) ↔
      Faithful key rank vs c cmp := by
  have heq := exists_eq_iff_tied key rank vs c
  have hne := exists_ne_of_rank_ne hkey vs c
  have hlt := exists_lt_iff_inverted hkey vs c
  have hgt := exists_gt_iff_inverted hkey vs c
  have hge := exists_ge_iff_disagree key rank vs c
  have hle := exists_le_iff_disagree key rank vs c
  cases cmp <;>
    simp only [Comparison.Holds, Comparison.Possible, Comparison.complement, Faithful,
      List.mem_map, exists_exists_and_eq_and, Covered] at *
  · exact ⟨fun h => heq.mp h.1, fun h => ⟨heq.mpr h, hne⟩⟩
  · exact ⟨fun h => heq.mp h.2, fun h => ⟨hne, heq.mpr h⟩⟩
  · exact ⟨fun h => ⟨hge.mp h.2, hlt.mp h.1⟩, fun h => ⟨hlt.mpr h.2, hge.mpr h.1⟩⟩
  · exact ⟨fun h => ⟨hle.mp h.1, hgt.mp h.2⟩, fun h => ⟨hle.mpr h.1, hgt.mpr h.2⟩⟩
  · exact ⟨fun h => ⟨hle.mp h.2, hgt.mp h.1⟩, fun h => ⟨hgt.mpr h.2, hle.mpr h.1⟩⟩
  · exact ⟨fun h => ⟨hge.mp h.1, hlt.mp h.2⟩, fun h => ⟨hge.mpr h.1, hlt.mpr h.2⟩⟩

end Disagreement

/-- Compared through themselves, keys answer soundly. -/
theorem Comparison.possible_of_holds (keys : List α) (c : α) (cmp : Comparison)
    (h : ∃ k ∈ keys, cmp.Holds k c) : cmp.Possible keys c := by
  obtain ⟨k, hk, hholds⟩ := h
  cases cmp with
  | eq => exact ⟨⟨k, hk, hholds.le⟩, ⟨k, hk, hholds.ge⟩⟩
  | ne | lt | le | gt | ge => exact ⟨k, hk, hholds⟩

end DeltaX.Support.KeySpan
