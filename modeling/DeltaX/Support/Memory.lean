import DeltaX.Support.LittleEndian
import Mathlib.Algebra.BigOperators.Group.List.Basic
import Mathlib.Data.List.Induction
/-!
# Byte memory

A memory gives each address its byte.  Bytes that are written can be read back until
something is written over them.  A table of entries with an arena behind it is filled in
one pass: each entry points at its payload, and the payloads lie one after the other.
-/

namespace DeltaX.Support.Memory

open LittleEndian

abbrev Mem : Type := ℕ → UInt8

def write (off : ℕ) (bytes : List UInt8) (m : Mem) : Mem :=
  fun a => if off ≤ a then (bytes[a - off]?).getD (m a) else m a

def read (m : Mem) (off n : ℕ) : List UInt8 := (List.range n).map fun i => m (off + i)

def Holds (m : Mem) (off : ℕ) (bytes : List UInt8) : Prop :=
  ∀ i b, bytes[i]? = some b → m (off + i) = b

/-! ## Writing and reading -/

theorem write_frame (m : Mem) {off : ℕ} {bytes : List UInt8} {a : ℕ}
    (h : a < off ∨ off + bytes.length ≤ a) : write off bytes m a = m a := by
  unfold write
  split_ifs with hle
  · rw [List.getElem?_eq_none (by omega)]
    rfl
  · rfl

theorem holds_write (off : ℕ) (bytes : List UInt8) (m : Mem) : Holds (write off bytes m) off bytes := by
  intro i b hb
  rw [write, if_pos (Nat.le_add_right off i), Nat.add_sub_cancel_left, hb]
  rfl

theorem lt_length_of_getElem? {bytes : List UInt8} {i : ℕ} {b : UInt8} (h : bytes[i]? = some b) :
    i < bytes.length := by
  by_contra hout
  rw [List.getElem?_eq_none (Nat.le_of_not_lt hout)] at h
  cases h

/-- Bytes stay where nothing else is written. -/
theorem Holds.frame {m m' : Mem} {off : ℕ} {bytes : List UInt8} (h : Holds m off bytes)
    (hsame : ∀ a, off ≤ a → a < off + bytes.length → m' a = m a) : Holds m' off bytes := by
  intro i b hb
  have hi := lt_length_of_getElem? hb
  rw [hsame (off + i) (Nat.le_add_right off i) (by omega)]
  exact h i b hb

theorem Holds.write {m : Mem} {off off' : ℕ} {bytes bytes' : List UInt8} (h : Holds m off bytes)
    (hdisj : off + bytes.length ≤ off' ∨ off' + bytes'.length ≤ off) :
    Holds (write off' bytes' m) off bytes :=
  h.frame fun _ hlo hhi => write_frame m (by omega)

theorem holds_append {m : Mem} {off : ℕ} {a b : List UInt8} :
    Holds m off (a ++ b) ↔ Holds m off a ∧ Holds m (off + a.length) b := by
  constructor
  · intro h
    constructor
    · intro i byte hi
      apply h i byte
      rwa [List.getElem?_append_left (lt_length_of_getElem? hi)]
    · intro i byte hi
      rw [Nat.add_assoc]
      apply h (a.length + i) byte
      rwa [List.getElem?_append_right (Nat.le_add_right _ _), Nat.add_sub_cancel_left]
  · intro ⟨ha, hb⟩ i byte hi
    by_cases hlt : i < a.length
    · rw [List.getElem?_append_left hlt] at hi
      exact ha i byte hi
    · rw [List.getElem?_append_right (Nat.le_of_not_lt hlt)] at hi
      have hbyte := hb (i - a.length) byte hi
      rwa [show off + a.length + (i - a.length) = off + i by omega] at hbyte

theorem Holds.read_eq {m : Mem} {off : ℕ} {bytes : List UInt8} (h : Holds m off bytes) {n : ℕ}
    (hn : n = bytes.length) : read m off n = bytes := by
  subst hn
  apply List.ext_getElem?
  intro i
  rw [read, List.getElem?_map]
  by_cases hi : i < bytes.length
  · rw [List.getElem?_range hi, Option.map_some, List.getElem?_eq_getElem hi,
      h i _ (List.getElem?_eq_getElem hi)]
  · rw [List.getElem?_eq_none (by rw [List.length_range]; omega), List.getElem?_eq_none (by omega)]
    rfl

theorem Holds.ofLe_read {m : Mem} {off n v : ℕ} (h : Holds m off (toLe n v)) (hv : v < 256 ^ n) :
    ofLe (read m off n) = v := by
  rw [h.read_eq (length_toLe n v).symm, ofLe_toLe hv]

/-- Two writes one behind the other are one. -/
theorem write_append (off : ℕ) (a b : List UInt8) (m : Mem) :
    write (off + a.length) b (write off a m) = write off (a ++ b) m := by
  ext1 addr
  by_cases hlo : addr < off
  · rw [write_frame _ (by omega), write_frame _ (by omega), write_frame _ (by omega)]
  · by_cases hmid : addr < off + a.length
    · rw [write_frame _ (Or.inl hmid), write, write, if_pos (by omega), if_pos (by omega),
        List.getElem?_append_left (by omega)]
    · have hinner : write off a m addr = m addr := write_frame m (by omega)
      show (if off + a.length ≤ addr then (b[addr - (off + a.length)]?).getD (write off a m addr)
        else write off a m addr) = if off ≤ addr then ((a ++ b)[addr - off]?).getD (m addr) else m addr
      rw [if_pos (by omega), if_pos (by omega), hinner, List.getElem?_append_right (by omega),
        Nat.sub_sub]

/-! ## Words one behind the other -/

/-- Words of `n` bytes, written from an offset on. -/
def writeWords (n off : ℕ) : List ℕ → Mem → Mem
  | [], m => m
  | w :: ws, m => writeWords n (off + n) ws (write off (toLe n w) m)

theorem write_nil (off : ℕ) (m : Mem) : write off [] m = m := by
  ext1 a
  exact write_frame m (by rw [List.length_nil]; omega)

theorem writeWords_eq (n off : ℕ) (ws : List ℕ) (m : Mem) :
    writeWords n off ws m = write off (ws.flatMap (toLe n)) m := by
  induction ws generalizing off m with
  | nil => exact (write_nil off m).symm
  | cons w ws ih =>
      have hnext := write_append off (toLe n w) (ws.flatMap (toLe n)) m
      rw [length_toLe] at hnext
      rw [writeWords, ih, hnext, List.flatMap_cons]

theorem length_flatMap_toLe (n : ℕ) (ws : List ℕ) : (ws.flatMap (toLe n)).length = n * ws.length := by
  induction ws with
  | nil => rfl
  | cons w ws ih =>
      rw [List.flatMap_cons, List.length_append, length_toLe, ih, List.length_cons, Nat.mul_succ,
        Nat.add_comm]

theorem Holds.word_read {m : Mem} {n off : ℕ} {ws : List ℕ} (h : Holds m off (ws.flatMap (toLe n)))
    {k w : ℕ} (hk : ws[k]? = some w) (hw : w < 256 ^ n) : ofLe (read m (off + n * k) n) = w := by
  induction ws generalizing off k with
  | nil => cases hk
  | cons v ws ih =>
      rw [List.flatMap_cons, holds_append, length_toLe] at h
      cases k with
      | zero =>
          obtain rfl := Option.some.inj hk
          rw [Nat.mul_zero, Nat.add_zero]
          exact h.1.ofLe_read hw
      | succ k =>
          have hrest := ih h.2 hk
          rwa [show off + n * (k + 1) = off + n + n * k by rw [Nat.mul_succ]; omega]

/-! ## Entries at a stride -/

/-- Entries written from an offset on, each at the next multiple of the stride. -/
def writeStrided (stride : ℕ) : ℕ → List (List UInt8) → Mem → Mem
  | _, [], m => m
  | off, entry :: entries, m => writeStrided stride (off + stride) entries (write off entry m)

theorem writeStrided_frame {stride off : ℕ} {entries : List (List UInt8)} (m : Mem)
    (hfit : ∀ entry ∈ entries, entry.length ≤ stride) {a : ℕ}
    (h : a < off ∨ off + stride * entries.length ≤ a) : writeStrided stride off entries m a = m a := by
  induction entries generalizing off m with
  | nil => rfl
  | cons entry entries ih =>
      have hentry := hfit entry List.mem_cons_self
      rw [List.length_cons, Nat.mul_succ] at h
      calc writeStrided stride (off + stride) entries (write off entry m) a
          = write off entry m a :=
            ih _ (fun e he => hfit e (List.mem_cons_of_mem entry he)) (by omega)
        _ = m a := write_frame m (by omega)

theorem Holds.writeStrided {m : Mem} {stride off off' : ℕ} {bytes : List UInt8}
    {entries : List (List UInt8)} (h : Holds m off bytes)
    (hfit : ∀ entry ∈ entries, entry.length ≤ stride)
    (hdisj : off + bytes.length ≤ off' ∨ off' + stride * entries.length ≤ off) :
    Holds (writeStrided stride off' entries m) off bytes :=
  h.frame fun _ hlo hhi => writeStrided_frame m hfit (by omega)

theorem holds_writeStrided {stride off : ℕ} {entries : List (List UInt8)} (m : Mem)
    (hfit : ∀ entry ∈ entries, entry.length ≤ stride) {i : ℕ} {entry : List UInt8}
    (hi : entries[i]? = some entry) :
    Holds (writeStrided stride off entries m) (off + stride * i) entry := by
  induction entries generalizing off m i with
  | nil => cases hi
  | cons e entries ih =>
      have hrest : ∀ entry ∈ entries, entry.length ≤ stride :=
        fun d hd => hfit d (List.mem_cons_of_mem e hd)
      cases i with
      | zero =>
          obtain rfl := Option.some.inj hi
          have hentry := hfit e List.mem_cons_self
          apply (holds_write off e m).frame
          intro a hlo hhi
          exact writeStrided_frame _ hrest (by omega)
      | succ i =>
          rw [show off + stride * (i + 1) = off + stride + stride * i by rw [Nat.mul_succ]; omega]
          exact ih (write off e m) hrest hi

/-! ## A table and its arena -/

section table

variable {α : Type*} (limit stride table arena : ℕ) (entry : α → ℕ → List UInt8)
  (payload : α → List UInt8) (size : α → ℕ)

/-- One row, over `(memory, index, cursor)`: its payload at the cursor of the arena, and its
entry in the table.  The cursor is a machine word and wraps at its limit. -/
def writeRow (acc : Mem × ℕ × ℕ) (x : α) : Mem × ℕ × ℕ :=
  (write (table + stride * acc.2.1) (entry x acc.2.2) (write (arena + acc.2.2) (payload x) acc.1),
    acc.2.1 + 1, (acc.2.2 + size x) % limit)

/-- Where the payload of a row begins in the arena. -/
def cursorAt (xs : List α) (i : ℕ) : ℕ := ((xs.take i).map size).sum

theorem cursorAt_append_left {xs : List α} {i : ℕ} (hi : i ≤ xs.length) (more : List α) :
    cursorAt size (xs ++ more) i = cursorAt size xs i := by
  rw [cursorAt, cursorAt, List.take_append_of_le_length hi]

theorem cursorAt_length (xs more : List α) :
    cursorAt size (xs ++ more) xs.length = (xs.map size).sum := by
  rw [cursorAt, List.take_left]

/-- Payloads do not overlap. -/
theorem cursorAt_add_le {xs : List α} {i j : ℕ} {x : α} (hx : xs[i]? = some x) (hij : i < j) :
    cursorAt size xs i + size x ≤ cursorAt size xs j := by
  have hi : i < xs.length := (List.getElem?_eq_some_iff.mp hx).1
  have hsplit : xs.take j = xs.take i ++ x :: (xs.take j).drop (i + 1) := by
    have hget : (xs.take j)[i]? = some x := by rw [List.getElem?_take_of_lt hij, hx]
    have hdrop := List.drop_eq_getElem?_toList_append (l := xs.take j) (i := i)
    rw [hget] at hdrop
    calc xs.take j = (xs.take j).take i ++ (xs.take j).drop i := (List.take_append_drop _ _).symm
      _ = xs.take i ++ (xs.take j).drop i := by rw [List.take_take, min_eq_left hij.le]
      _ = xs.take i ++ x :: (xs.take j).drop (i + 1) := by rw [hdrop]; rfl
  rw [cursorAt, cursorAt, hsplit, List.map_append, List.sum_append, List.map_cons, List.sum_cons]
  omega

theorem cursorAt_add_le_total {xs : List α} {i : ℕ} {x : α} (hx : xs[i]? = some x) :
    cursorAt size xs i + size x ≤ (xs.map size).sum := by
  have hi : i < xs.length := (List.getElem?_eq_some_iff.mp hx).1
  have hend := cursorAt_add_le size hx hi
  rwa [cursorAt, cursorAt, List.take_length] at hend

/-- The rows written so far, and nothing outside the table and the arena. -/
structure Filled (m : Mem) (xs : List α) (acc : Mem × ℕ × ℕ) : Prop where
  index : acc.2.1 = xs.length
  cursor : acc.2.2 = (xs.map size).sum
  frame : ∀ a, (a < table ∨ table + stride * xs.length ≤ a) →
    (a < arena ∨ arena + (xs.map size).sum ≤ a) → acc.1 a = m a
  rows : ∀ i x, xs[i]? = some x → Holds acc.1 (table + stride * i) (entry x (cursorAt size xs i)) ∧
    Holds acc.1 (arena + cursorAt size xs i) (payload x)

variable {limit stride table arena entry payload size}

theorem Filled.snoc {m : Mem} {xs : List α} {acc : Mem × ℕ × ℕ} {x : α}
    (h : Filled stride table arena entry payload size m xs acc)
    (hentry : ∀ x c, (entry x c).length = stride)
    (hsize : ∀ y ∈ xs ++ [x], size y = (payload y).length)
    (hfit : table + stride * (xs.length + 1) ≤ arena)
    (hlimit : ((xs ++ [x]).map size).sum < limit) :
    Filled stride table arena entry payload size m (xs ++ [x])
      (writeRow limit stride table arena entry payload size acc x) := by
  obtain ⟨m', index, cursor⟩ := acc
  obtain ⟨rfl, rfl, hframe, hrows⟩ := h
  have hsum : ((xs ++ [x]).map size).sum = (xs.map size).sum + size x := by simp
  have hlen : (xs ++ [x]).length = xs.length + 1 := by simp
  have hstride : stride * (xs.length + 1) = stride * xs.length + stride := Nat.mul_succ _ _
  have hx := hsize x (List.mem_append_right xs List.mem_cons_self)
  rw [hsum] at hlimit
  refine ⟨hlen.symm, ?_, ?_, ?_⟩
  · show ((xs.map size).sum + size x) % limit = ((xs ++ [x]).map size).sum
    rw [hsum, Nat.mod_eq_of_lt hlimit]
  · intro a htable harena
    rw [hlen] at htable
    rw [hsum] at harena
    show write (table + stride * xs.length) (entry x (xs.map size).sum)
      (write (arena + (xs.map size).sum) (payload x) m') a = m a
    rw [write_frame _ (by rw [hentry]; omega), write_frame _ (by omega)]
    exact hframe a (by omega) (by omega)
  · intro i y hy
    show Holds (write (table + stride * xs.length) (entry x (xs.map size).sum)
        (write (arena + (xs.map size).sum) (payload x) m'))
        (table + stride * i) (entry y (cursorAt size (xs ++ [x]) i)) ∧
      Holds (write (table + stride * xs.length) (entry x (xs.map size).sum)
        (write (arena + (xs.map size).sum) (payload x) m'))
        (arena + cursorAt size (xs ++ [x]) i) (payload y)
    by_cases hi : i < xs.length
    · rw [List.getElem?_append_left hi] at hy
      have hentry' : Holds m' (table + stride * i) (entry y (cursorAt size xs i)) := (hrows i y hy).1
      have hpayload' : Holds m' (arena + cursorAt size xs i) (payload y) := (hrows i y hy).2
      have hend := cursorAt_add_le_total size hy
      have hrow : stride * i + stride ≤ stride * xs.length := by
        rw [← Nat.mul_succ]
        exact Nat.mul_le_mul_left stride hi
      have hy' := hsize y (List.mem_append_left [x] (List.mem_of_getElem? hy))
      rw [cursorAt_append_left size hi.le]
      constructor
      · apply (hentry'.write _).write
        · rw [hentry, hentry]
          omega
        · rw [hentry]
          omega
      · apply (hpayload'.write _).write
        · rw [hentry]
          omega
        · omega
    · have hlast : i = xs.length := by
        have := (List.getElem?_eq_some_iff.mp hy).1
        omega
      subst hlast
      rw [List.getElem?_append_right (le_refl _), Nat.sub_self] at hy
      obtain rfl := Option.some.inj hy
      rw [cursorAt_length]
      constructor
      · exact holds_write _ _ _
      · apply (holds_write _ _ _).write
        rw [hentry]
        omega

theorem filled_foldl (m : Mem) (xs : List α) (hentry : ∀ x c, (entry x c).length = stride)
    (hsize : ∀ x ∈ xs, size x = (payload x).length) (hfit : table + stride * xs.length ≤ arena)
    (hlimit : (xs.map size).sum < limit) :
    Filled stride table arena entry payload size m xs
      (xs.foldl (writeRow limit stride table arena entry payload size) (m, 0, 0)) := by
  induction xs using List.reverseRecOn with
  | nil => exact ⟨rfl, rfl, fun _ _ _ => rfl, fun i x hx => by cases hx⟩
  | append_singleton xs x ih =>
      rw [List.length_append, List.length_singleton] at hfit
      rw [List.foldl_append]
      have hmono : stride * xs.length ≤ stride * (xs.length + 1) := Nat.mul_le_mul_left _ (by omega)
      have hprefix : (xs.map size).sum ≤ ((xs ++ [x]).map size).sum := by
        rw [List.map_append, List.sum_append]
        exact Nat.le_add_right _ _
      exact (ih (fun y hy => hsize y (List.mem_append_left [x] hy)) (by omega)
        (by omega)).snoc hentry hsize hfit hlimit

end table

end DeltaX.Support.Memory
