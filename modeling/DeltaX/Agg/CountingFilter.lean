import DeltaX.Agg.TopN
import DeltaX.Support.GuardedCounters
import Mathlib.Data.Nat.Log
import Mathlib.Order.Interval.Finset.Fin
/-!
# The counting filter

Pass 1 of the count-floor scheme bumps two byte cells for every row, from all workers
at once.  A bump loads a cell and adds to it only below `SATURATE`, so that the
twenty values above are room for workers that have loaded the same old value.
-/

namespace DeltaX.Agg

open Support.GuardedCounters

def getParallelWorkers (setting : ℤ) (cpus : ℕ) : ℕ :=
  if setting ≤ 0 then min cpus 16 else min setting.toNat 64

namespace CountingFilter

/-! ## Slots -/

def saturate : ℕ := 235

/-- The logarithm of the number of slots of `new`: eight slots a row rounded up to a
power of two, within 2^22 and 2^30 slots. -/
def sizeLog2 (rows : ℕ) : ℕ := min 30 (max 22 (Nat.clog 2 (8 * rows)))

def mask (rows : ℕ) : BitVec 64 := BitVec.ofNat 64 (2 ^ sizeLog2 rows - 1)

def keyHash (key : BitVec 128) : BitVec 64 :=
  mix64 (key.setWidth 64 ^^^ (key >>> 64).setWidth 64 * 0x9e3779b97f4a7c15#64)

def isSampledHashed (h : BitVec 64) : Bool := (h >>> 44) &&& 127#64 == 0#64

def block (rows : ℕ) (h : BitVec 64) : BitVec 64 := (h &&& mask rows) &&& ~~~63#64

def offset1 (h : BitVec 64) : BitVec 64 := (h >>> 32) &&& 63#64

def offset2 (h : BitVec 64) : BitVec 64 := offset1 h ^^^ (((h >>> 38) &&& 62#64) ||| 1#64)

theorem sizeLog2_mem (rows : ℕ) : 22 ≤ sizeLog2 rows ∧ sizeLog2 rows ≤ 30 := by
  unfold sizeLog2
  omega

theorem offset1_lt (h : BitVec 64) : (offset1 h).toNat < 64 := by
  rw [offset1, BitVec.toNat_and]
  exact Nat.and_lt_two_pow _ (show (63#64).toNat < 2 ^ 6 by decide)

theorem offset2_lt (h : BitVec 64) : (offset2 h).toNat < 64 := by
  rw [offset2, BitVec.toNat_xor, BitVec.toNat_or, BitVec.toNat_and]
  apply Nat.xor_lt_two_pow (n := 6) (offset1_lt h)
  apply Nat.or_lt_two_pow
  · exact Nat.and_lt_two_pow _ (show (62#64).toNat < 2 ^ 6 by decide)
  · decide

/-- A slot is always one of the filter's. -/
theorem block_or_lt (rows : ℕ) (h offset : BitVec 64) (hoffset : offset.toNat < 64) :
    (block rows h ||| offset).toNat < 2 ^ sizeLog2 rows := by
  obtain ⟨hmin, hmax⟩ := sizeLog2_mem rows
  have hpow : 2 ^ sizeLog2 rows ≤ 2 ^ 30 := Nat.pow_le_pow_right (by decide) hmax
  have hmask : (mask rows).toNat < 2 ^ sizeLog2 rows := by
    rw [mask, BitVec.toNat_ofNat, Nat.mod_eq_of_lt (by omega)]
    exact Nat.sub_lt (Nat.two_pow_pos _) (by decide)
  rw [BitVec.toNat_or]
  apply Nat.or_lt_two_pow
  · rw [block, BitVec.toNat_and, BitVec.toNat_and]
    exact lt_of_le_of_lt Nat.and_le_left (Nat.and_lt_two_pow _ hmask)
  · calc
      offset.toNat < 2 ^ 6 := hoffset
      _ ≤ 2 ^ sizeLog2 rows := Nat.pow_le_pow_right (by decide) (by omega)

/-- The two slots of a key never coincide: the lowest bit tells them apart. -/
theorem block_or_offset_ne (rows : ℕ) (h : BitVec 64) :
    block rows h ||| offset1 h ≠ block rows h ||| offset2 h := by
  intro heq
  have hbit := congrArg (fun v : BitVec 64 => v.getLsbD 0) heq
  simp only [block, offset2, BitVec.getLsbD_or, BitVec.getLsbD_and, BitVec.getLsbD_xor,
    BitVec.getLsbD_not] at hbit
  revert hbit
  cases (offset1 h).getLsbD 0 <;> simp

/-- An index into `slots`. -/
abbrev Slot (rows : ℕ) : Type := Fin (2 ^ sizeLog2 rows)

def slotPairHashed (rows : ℕ) (h : BitVec 64) : Slot rows × Slot rows :=
  (⟨(block rows h ||| offset1 h).toNat, block_or_lt rows h _ (offset1_lt h)⟩,
    ⟨(block rows h ||| offset2 h).toNat, block_or_lt rows h _ (offset2_lt h)⟩)

def slotPair (rows : ℕ) (key : BitVec 128) : Slot rows × Slot rows :=
  slotPairHashed rows (keyHash key)

theorem slotPair_ne (rows : ℕ) (key : BitVec 128) :
    (slotPair rows key).1 ≠ (slotPair rows key).2 := by
  intro heq
  have hval : (slotPair rows key).1.val = (slotPair rows key).2.val := congrArg Fin.val heq
  exact block_or_offset_ne rows (keyHash key) (BitVec.eq_of_toNat_eq hval)

/-! ## Bumps and reads -/

/-- The cells that `bump_hashed` is called on for the keys, in order. -/
def bumped (rows : ℕ) (keys : List (BitVec 128)) : List (Slot rows) :=
  keys.flatMap fun key => [(slotPair rows key).1, (slotPair rows key).2]

def aboveFloor (rows : ℕ) (cells : Slot rows → ℕ) (threshold : ℕ) (key : BitVec 128) : Bool :=
  decide (threshold ≤ cells (slotPair rows key).1) &&
    decide (threshold ≤ cells (slotPair rows key).2)

/-- `pick_count_floor`: the count of the `limit`-th largest, within 2 and `SATURATE`. -/
def pickCountFloor (sampleCounts : List ℕ) (limit : ℕ) : ℕ :=
  if sampleCounts.length < limit ∨ limit = 0 then 2
  else
    let kth := (sampleCounts.mergeSort fun a b => decide (b ≤ a)).getD (limit - 1) 0
    max 2 (min saturate kth)

theorem pickCountFloor_le (sampleCounts : List ℕ) (limit : ℕ) :
    pickCountFloor sampleCounts limit ≤ saturate := by
  unfold pickCountFloor
  split_ifs
  · decide
  · exact max_le (by decide) (min_le_left _ _)

/-- Every cell of a key is bumped whenever the key is. -/
theorem count_le_count_bumped {rows : ℕ} {key : BitVec 128} {slot : Slot rows}
    (hslot : slot ∈ [(slotPair rows key).1, (slotPair rows key).2]) (keys : List (BitVec 128)) :
    keys.count key ≤ (bumped rows keys).count slot := by
  induction keys with
  | nil => exact Nat.zero_le _
  | cons k keys ih =>
      rw [bumped, List.flatMap_cons, List.count_append]
      by_cases hk : k = key
      · subst hk
        rw [List.count_cons_self]
        have hfirst := List.count_pos_iff.mpr hslot
        unfold bumped at ih
        omega
      · rw [List.count_cons_of_ne hk]
        exact ih.trans (Nat.le_add_left _ _)

/-- One after the other, as many bumps of one key leave each of its cells at their
number. -/
theorem count_bumped_replicate (rows : ℕ) (key : BitVec 128) (times : ℕ) :
    (bumped rows (List.replicate times key)).count (slotPair rows key).1 = times ∧
      ∀ slot, (bumped rows (List.replicate times key)).count slot ≤ times := by
  have hne := slotPair_ne rows key
  induction times with
  | zero => exact ⟨rfl, fun _ => le_refl _⟩
  | succ times ih =>
      have hcons : bumped rows (List.replicate (times + 1) key) =
          (slotPair rows key).1 :: (slotPair rows key).2 ::
            bumped rows (List.replicate times key) := rfl
      rw [hcons]
      constructor
      · rw [List.count_cons_self, List.count_cons_of_ne hne.symm, ih.1]
      · intro slot
        have hrest := ih.2 slot
        rw [List.count_cons, List.count_cons]
        by_cases h1 : (slotPair rows key).1 = slot
        · have h2 : (slotPair rows key).2 ≠ slot := fun h => hne (h1.trans h.symm)
          simp only [beq_iff_eq, h1, h2, if_true, if_false]
          omega
        · simp only [beq_iff_eq, h1, if_false]
          split_ifs <;> omega

/-! ## Pass 1 from all workers -/

variable {workers : ℕ}

/-- The states of the filter on the way of pass 1, from cells that are all zero, where
each worker bumps its keys. -/
def Pass1 (rows : ℕ) (keys : Fin workers → List (BitVec 128))
    (st : State (Slot rows) workers) : Prop :=
  Steps saturate 256 (State.start fun i => bumped rows (keys i)) st

/-- No cell ever wraps around, and when all is done each key that was bumped as often as
the floor says reads as above it. -/
def NeverForgets (rows workers : ℕ) : Prop :=
  ∀ (keys : Fin workers → List (BitVec 128)) (st : State (Slot rows) workers), Pass1 rows keys st →
    (∀ i slot, (st.workers i).pending = some slot → st.cells slot + 1 < 256) ∧
    (st.Done → ∀ sampleCounts limit key,
      pickCountFloor sampleCounts limit ≤ ∑ i, (keys i).count key →
        aboveFloor rows st.cells (pickCountFloor sampleCounts limit) key = true)

theorem counted_of_pass1 {rows : ℕ} {keys : Fin workers → List (BitVec 128)}
    {st : State (Slot rows) workers} (hworkers : workers ≤ 21) (h : Pass1 rows keys st) :
    Counted saturate (fun slot => ∑ i, (bumped rows (keys i)).count slot) st :=
  (counted_start _).steps (by decide) (by unfold saturate; omega) h

theorem aboveFloor_of_done {rows : ℕ} {keys : Fin workers → List (BitVec 128)}
    {st : State (Slot rows) workers} (hworkers : workers ≤ 21) (h : Pass1 rows keys st)
    (hdone : st.Done) {threshold : ℕ} (hthreshold : threshold ≤ saturate) {key : BitVec 128}
    (hkey : threshold ≤ ∑ i, (keys i).count key) :
    aboveFloor rows st.cells threshold key = true := by
  have hcounted := counted_of_pass1 hworkers h
  have hcell : ∀ slot ∈ [(slotPair rows key).1, (slotPair rows key).2],
      threshold ≤ st.cells slot := by
    intro slot hslot
    have hbumps : ∑ i, (keys i).count key ≤ ∑ i, (bumped rows (keys i)).count slot :=
      Finset.sum_le_sum fun i _ => count_le_count_bumped hslot (keys i)
    calc
      threshold ≤ min saturate (∑ i, (bumped rows (keys i)).count slot) :=
        le_min hthreshold (hkey.trans hbumps)
      _ ≤ st.cells slot := hcounted.le_of_done hdone slot
  rw [aboveFloor, decide_eq_true (hcell _ List.mem_cons_self),
    decide_eq_true (hcell _ (List.mem_cons_of_mem _ List.mem_cons_self))]
  rfl

/-- All workers have loaded a cell of the key at the last value below `SATURATE`. -/
def crowded (rows workers : ℕ) (key : BitVec 128) : State (Slot rows) workers :=
  { cells := fun slot => (bumped rows (List.replicate (saturate - 1) key)).count slot
    workers := fun _ => ⟨some (slotPair rows key).1, [(slotPair rows key).2]⟩ }

def crowdedKeys (workers : ℕ) (key : BitVec 128) (i : Fin workers) : List (BitVec 128) :=
  if i.val = 0 then List.replicate saturate key else [key]

theorem pass1_crowded (rows : ℕ) (hworkers : 0 < workers) (key : BitVec 128) :
    Pass1 rows (crowdedKeys workers key) (crowded rows workers key) := by
  obtain ⟨hcount, hle⟩ := count_bumped_replicate rows key (saturate - 1)
  have hfirst : bumped rows (crowdedKeys workers key ⟨0, hworkers⟩) =
      bumped rows (List.replicate (saturate - 1) key) ++
        (slotPair rows key).1 :: [(slotPair rows key).2] := by
    rw [crowdedKeys, if_pos rfl, show saturate = saturate - 1 + 1 from rfl, List.replicate_succ',
      bumped, List.flatMap_append]
    rfl
  apply steps_crowd hfirst
  · intro j hj
    have hval : j.val ≠ 0 := fun h => hj (Fin.ext h)
    rw [crowdedKeys, if_neg hval]
    rfl
  · rw [hcount]
    rfl
  · intro slot
    exact (hle slot).trans (Nat.sub_le _ _)
  · decide

/-- With more workers the last ones wrap a cell around. -/
theorem exists_wrap (rows : ℕ) (hworkers : 21 < workers) (key : BitVec 128) :
    ∃ (keys : Fin workers → List (BitVec 128)) (st : State (Slot rows) workers),
      Pass1 rows keys st ∧
        ∃ i slot, (st.workers i).pending = some slot ∧ st.cells slot + 1 = 256 := by
  obtain ⟨hcount, -⟩ := count_bumped_replicate rows key (saturate - 1)
  have hcell : (crowded rows workers key).cells (slotPair rows key).1 = 234 := hcount
  have hloaded : ∀ i, (crowded rows workers key).workers i =
      ⟨some (slotPair rows key).1, [(slotPair rows key).2]⟩ := fun i => rfl
  -- twenty-one workers add, the next one is still to
  have hadds : Steps saturate 256 (crowded rows workers key) _ :=
    steps_adds hloaded (by rw [hcell]; decide) (Finset.Iio ⟨21, hworkers⟩)
  refine ⟨_, _, (pass1_crowded rows (by omega) key).trans hadds, ⟨21, hworkers⟩,
    (slotPair rows key).1, ?_, ?_⟩
  · simp only [Finset.notMem_Iio_self, if_false]
    rfl
  · simp only [Function.update_self, hcell, Fin.card_Iio]

/-- A run of 22 workers that ends with a cell of the key back at zero. -/
theorem exists_forgotten (rows : ℕ) (key : BitVec 128) :
    ∃ st : State (Slot rows) 22, Pass1 rows (crowdedKeys 22 key) st ∧ st.Done ∧
      st.cells (slotPair rows key).1 = 0 := by
  obtain ⟨hcount, -⟩ := count_bumped_replicate rows key (saturate - 1)
  have hcell : (crowded rows 22 key).cells (slotPair rows key).1 = 234 := hcount
  have hloaded : ∀ i, (crowded rows 22 key).workers i =
      ⟨some (slotPair rows key).1, [(slotPair rows key).2]⟩ := fun i => rfl
  let spent : State (Slot rows) 22 :=
    { cells := Function.update (crowded rows 22 key).cells (slotPair rows key).1
        (((crowded rows 22 key).cells (slotPair rows key).1 + (Finset.univ : Finset (Fin 22)).card) % 256)
      workers := fun i => if i ∈ Finset.univ then ⟨none, [(slotPair rows key).2]⟩
        else (crowded rows 22 key).workers i }
  have hadds : Steps saturate 256 (crowded rows 22 key) spent :=
    steps_adds hloaded (by rw [hcell]; decide) Finset.univ
  have hend : ∃ st, Steps saturate 256 spent st ∧ st.Done ∧
      ∀ c, spent.Left c → st.cells c = spent.cells c := exists_done spent
  obtain ⟨st, hsteps, hdone, hleft⟩ := hend
  have hnobody : spent.Left (slotPair rows key).1 := by
    intro i
    have hworker : spent.workers i = ⟨none, [(slotPair rows key).2]⟩ := if_pos (Finset.mem_univ i)
    rw [hworker]
    exact ⟨nofun, List.not_mem_cons_of_ne_of_not_mem (slotPair_ne rows key) List.not_mem_nil⟩
  have hzero : spent.cells (slotPair rows key).1 = 0 := by
    show Function.update (crowded rows 22 key).cells (slotPair rows key).1 _ _ = 0
    rw [Function.update_self, hcell, Finset.card_univ, Fintype.card_fin]
  exact ⟨st, ((pass1_crowded rows (by decide) key).trans hadds).trans hsteps, hdone,
    (hleft _ hnobody).trans hzero⟩

theorem neverForgets_of_le {rows : ℕ} (hworkers : workers ≤ 21) : NeverForgets rows workers := by
  intro keys st h
  constructor
  · intro i slot hi
    exact (counted_of_pass1 hworkers h).no_wrap (by decide) (by unfold saturate; omega) hi
  · intro hdone sampleCounts limit key hkey
    exact aboveFloor_of_done hworkers h hdone (pickCountFloor_le sampleCounts limit) hkey

theorem not_neverForgets_of_lt {rows : ℕ} (hworkers : 21 < workers) :
    ¬ NeverForgets rows workers := by
  intro hnever
  obtain ⟨keys, st, hst, i, slot, hi, hwrap⟩ := exists_wrap rows hworkers 0
  have hlt := (hnever keys st hst).1 i slot hi
  omega

/-- The filter forgets nothing as long as the setting asks for at most 21 workers. -/
theorem neverForgets_iff (rows : ℕ) (setting : ℤ) (cpus : ℕ) :
    NeverForgets rows (getParallelWorkers setting cpus) ↔ setting ≤ 21 := by
  constructor
  · intro hnever
    by_contra hmany
    apply not_neverForgets_of_lt _ hnever
    unfold getParallelWorkers
    split_ifs <;> omega
  · intro hsetting
    apply neverForgets_of_le
    unfold getParallelWorkers
    split_ifs <;> omega

/-- The largest number of workers, over sixteen million rows. -/
theorem not_neverForgets_64_workers : ¬ NeverForgets 16000000 (getParallelWorkers 64 8) :=
  not_neverForgets_of_lt (by decide)

end CountingFilter

end DeltaX.Agg
