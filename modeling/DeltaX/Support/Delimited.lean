import Mathlib.Data.List.Basic
/-!
# Streams that are read back from the front

Values of several kinds are written one after the other.  A code is delimited when the
front of a stream tells what was written there and where the rest begins, whatever the
rest is.  It may tell less than the whole value: what it tells is `key`.
-/

namespace DeltaX.Support.Delimited

variable {α β γ κ μ : Type*}

/-- The front of a stream determines the `key` of the value written there, and the rest. -/
def Delimits (ok : α → Prop) (code : α → List β) (key : α → κ) : Prop :=
  ∀ ⦃a b : α⦄, ok a → ok b → ∀ ⦃s t : List β⦄, code a ++ s = code b ++ t → key a = key b ∧ s = t

namespace Delimits

variable {ok : α → Prop} {code : α → List β} {key : α → κ}

theorem of_length (hlen : ∀ a b, (code a).length = (code b).length)
    (hinj : ∀ a b, ok a → ok b → code a = code b → key a = key b) : Delimits ok code key := by
  intro a b ha hb s t h
  obtain ⟨hcode, hrest⟩ := List.append_inj h (hlen a b)
  exact ⟨hinj a b ha hb hcode, hrest⟩

/-- Part of a value is written. -/
theorem comp (h : Delimits ok code key) (f : γ → α) :
    Delimits (fun c => ok (f c)) (fun c => code (f c)) (fun c => key (f c)) :=
  fun _ _ ha hb _ _ heq => h ha hb heq

/-- A stricter promise, and a key that tells less. -/
theorem mono (h : Delimits ok code key) {ok' : α → Prop} {key' : α → μ}
    (hok : ∀ a, ok' a → ok a) (hkey : ∀ a b, ok' a → ok' b → key a = key b → key' a = key' b) :
    Delimits ok' code key' := by
  intro a b ha hb s t heq
  obtain ⟨hk, hrest⟩ := h (hok a ha) (hok b hb) heq
  exact ⟨hkey a b ha hb hk, hrest⟩

/-- One field behind another, which may decide how it is written. -/
theorem append (h : Delimits ok code key) {code' : α → List β} {key' : α → μ}
    (h' : ∀ ⦃a b⦄, ok a → ok b → key a = key b → ∀ ⦃s t⦄, code' a ++ s = code' b ++ t →
      key' a = key' b ∧ s = t) :
    Delimits ok (fun a => code a ++ code' a) (fun a => (key a, key' a)) := by
  intro a b ha hb s t heq
  rw [List.append_assoc, List.append_assoc] at heq
  obtain ⟨hk, hrest⟩ := h ha hb heq
  obtain ⟨hk', hrest'⟩ := h' ha hb hk hrest
  exact ⟨Prod.ext hk hk', hrest'⟩

theorem append_indep (h : Delimits ok code key) {code' : α → List β} {key' : α → μ}
    (h' : Delimits ok code' key') :
    Delimits ok (fun a => code a ++ code' a) (fun a => (key a, key' a)) :=
  h.append fun _ _ ha hb _ _ _ heq => h' ha hb heq

theorem marked (h : Delimits ok code key) (mark : β) :
    Delimits ok (fun a => mark :: code a) key :=
  fun _ _ ha hb _ _ heq => h ha hb (List.cons.inj heq).2

/-- A value that may be absent, where a mark says so. -/
theorem option (h : Delimits ok code key) (absent : β)
    (hpresent : ∀ a, ∃ mark rest, code a = mark :: rest ∧ mark ≠ absent) :
    Delimits (fun o : Option α => ∀ a, o = some a → ok a) (fun o => o.elim [absent] code)
      (Option.map key) := by
  intro a b ha hb s t heq
  cases a with
  | none =>
      cases b with
      | none => exact ⟨rfl, (List.cons.inj heq).2⟩
      | some b =>
          obtain ⟨mark, rest, hcode, hne⟩ := hpresent b
          have heq' : absent :: s = code b ++ t := heq
          rw [hcode] at heq'
          exact absurd (List.cons.inj heq').1.symm hne
  | some a =>
      cases b with
      | none =>
          obtain ⟨mark, rest, hcode, hne⟩ := hpresent a
          have heq' : code a ++ s = absent :: t := heq
          rw [hcode] at heq'
          exact absurd (List.cons.inj heq').1 hne
      | some b =>
          obtain ⟨hk, hrest⟩ := h (ha a rfl) (hb b rfl) heq
          exact ⟨congrArg some hk, hrest⟩

/-- Values of two kinds, whose codes never begin alike. -/
theorem sum (h : Delimits ok code key) {ok' : γ → Prop} {code' : γ → List β} {key' : γ → μ}
    (h' : Delimits ok' code' key') (hne : ∀ a c s t, code a ++ s ≠ code' c ++ t) :
    Delimits (Sum.elim ok ok') (Sum.elim code code') (Sum.map key key') := by
  intro a b ha hb s t heq
  cases a with
  | inl a =>
      cases b with
      | inl b =>
          obtain ⟨hk, hrest⟩ := h ha hb heq
          exact ⟨congrArg Sum.inl hk, hrest⟩
      | inr b => exact absurd heq (hne a b s t)
  | inr a =>
      cases b with
      | inl b => exact absurd heq.symm (hne b a t s)
      | inr b =>
          obtain ⟨hk, hrest⟩ := h' ha hb heq
          exact ⟨congrArg Sum.inr hk, hrest⟩

/-- The same count of values, one after the other. -/
theorem flatMap (h : Delimits ok code key) {as bs : List α} (ha : ∀ a ∈ as, ok a)
    (hb : ∀ b ∈ bs, ok b) (hlen : as.length = bs.length) {s t : List β}
    (heq : as.flatMap code ++ s = bs.flatMap code ++ t) : as.map key = bs.map key ∧ s = t := by
  induction as generalizing bs with
  | nil =>
      have hnil : bs = [] := List.eq_nil_of_length_eq_zero hlen.symm
      subst hnil
      exact ⟨rfl, heq⟩
  | cons a as ih =>
      cases bs with
      | nil => cases hlen
      | cons b bs =>
          rw [List.flatMap_cons, List.flatMap_cons, List.append_assoc, List.append_assoc] at heq
          obtain ⟨hk, hrest⟩ := h (ha a List.mem_cons_self) (hb b List.mem_cons_self) heq
          obtain ⟨hks, hend⟩ := ih (fun a h => ha a (List.mem_cons_of_mem _ h))
            (fun b h => hb b (List.mem_cons_of_mem _ h)) (Nat.succ.inj hlen) hrest
          exact ⟨by rw [List.map_cons, List.map_cons, hk, hks], hend⟩

/-- A list behind its length. -/
theorem counted (h : Delimits ok code key) {small : ℕ → Prop} {count : ℕ → List β}
    (hcount : Delimits small count id) :
    Delimits (fun as : List α => small as.length ∧ ∀ a ∈ as, ok a)
      (fun as => count as.length ++ as.flatMap code) (List.map key) := by
  intro as bs ha hb s t heq
  rw [List.append_assoc, List.append_assoc] at heq
  obtain ⟨hlen, hrest⟩ := hcount ha.1 hb.1 heq
  exact h.flatMap ha.2 hb.2 hlen hrest

theorem stream (h : Delimits ok code key) (hne : ∀ a, code a ≠ []) {as bs : List α}
    (ha : ∀ a ∈ as, ok a) (hb : ∀ b ∈ bs, ok b) (heq : as.flatMap code = bs.flatMap code) :
    as.map key = bs.map key := by
  induction as generalizing bs with
  | nil =>
      cases bs with
      | nil => rfl
      | cons b bs => exact absurd (List.append_eq_nil_iff.mp heq.symm).1 (hne b)
  | cons a as ih =>
      cases bs with
      | nil => exact absurd (List.append_eq_nil_iff.mp heq).1 (hne a)
      | cons b bs =>
          rw [List.flatMap_cons, List.flatMap_cons] at heq
          obtain ⟨hk, hrest⟩ := h (ha a List.mem_cons_self) (hb b List.mem_cons_self) heq
          rw [List.map_cons, List.map_cons, hk, ih (fun a h => ha a (List.mem_cons_of_mem _ h))
            (fun b h => hb b (List.mem_cons_of_mem _ h)) hrest]

end Delimits

end DeltaX.Support.Delimited
