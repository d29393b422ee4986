import DeltaX.BlobCache.Insertion
/-!
# Backends that share the cache

In a run the lookups, insertions and releases of any number of backends follow each other
in any order.  The cache stays represented by lists of entries in every run in which the
pins on one key stay below the range of the pin counter.
-/

namespace DeltaX.BlobCache

open Support Support.Machine

variable {cfg : Config} {pins : List Pin} {inserted : List (BlobCacheKey × List UInt8)}
  {c : Cache} {lru : ℕ → List ℕ}

/-! ## Pins -/

/-- Pins that agree with the counters of the entries. -/
theorem Represents.repin (h : Represents cfg pins inserted c lru) {pins' : List Pin}
    {pinCount : ℕ → BitVec 32} {lastUsed : ℕ → BitVec 64} {tick : BitVec 64}
    (hpinned : ∀ pin ∈ pins', pin.entryDp ∈ lru (shardIdx cfg.nShards pin.key) ∧
      c.memory.key pin.entryDp = pin.key)
    (hcount : ∀ i, ∀ dp ∈ lru i, (pinCount dp).toNat = pinsOn pins' dp) :
    Represents cfg pins' inserted
      { c with
        memory := { c.memory with pinCount := pinCount, lastUsed := lastUsed }
        lastUsedCounter := tick } lru :=
  { h with
    separate := ⟨h.separate.bounds, h.separate.disjoint⟩
    pinned := hpinned
    pinCount_eq := hcount }

theorem pinsOn_cons (pin : Pin) (pins : List Pin) (dp : ℕ) :
    pinsOn (pin :: pins) dp = pinsOn pins dp + if pin.entryDp = dp then 1 else 0 := by
  simp only [pinsOn, List.countP_cons, beq_iff_eq]

theorem Represents.pinsOn_le (h : Represents cfg pins inserted c lru) (dp : ℕ) :
    pinsOn pins dp ≤ pins.countP fun pin => pin.key == c.memory.key dp := by
  apply List.countP_mono_left
  intro pin hpin heq
  rw [beq_iff_eq] at heq ⊢
  rw [← (h.pinned pin hpin).2, heq]

theorem Represents.pin (h : Represents cfg pins inserted c lru) {key : BlobCacheKey} {dp : ℕ}
    (hdp : dp ∈ lru (shardIdx cfg.nShards key)) (hkey : c.memory.key dp = key) (backend : ℕ)
    (hfit : pinsOn pins dp + 1 < 2 ^ 32) :
    Represents cfg (⟨backend, dp, key⟩ :: pins) inserted (c.pin dp) lru := by
  apply h.repin
  · intro pin hpin
    rcases List.mem_cons.mp hpin with rfl | hpin
    · exact ⟨hdp, hkey⟩
    · exact h.pinned pin hpin
  · intro i p hp
    have hcount := h.pinCount_eq i p hp
    rw [pinsOn_cons, Function.update_apply]
    by_cases heq : p = dp
    · rw [if_pos heq, if_pos heq.symm, ← heq]
      rw [← heq] at hfit
      exact toNat_add_eq hcount rfl hfit
    · rw [if_neg heq, if_neg (Ne.symm heq)]
      exact hcount

theorem releasePin_spec (h : Represents cfg pins inserted c lru) {pin : Pin} (hpin : pin ∈ pins) :
    ∃ m, releasePin c.memory pin.entryDp = some m ∧
      Represents cfg (pins.erase pin) inserted { c with memory := m } lru := by
  obtain ⟨hmem, hkey⟩ := h.pinned pin hpin
  have hentry : c.memory.entryPtr pin.entryDp = some pin.entryDp :=
    entryPtr_eq (h.entry _ _ hmem)
  refine ⟨{ c.memory with
    pinCount := Function.update c.memory.pinCount pin.entryDp
      (c.memory.pinCount pin.entryDp - 1) }, ?_, ?_⟩
  · rw [releasePin, if_neg (h.ne_zero hmem), hentry]
    rfl
  · refine Represents.repin h ?_ ?_
    · exact fun other hother => h.pinned other (List.mem_of_mem_erase hother)
    · intro i p hp
      have hperm : pinsOn pins p = pinsOn (pin :: pins.erase pin) p :=
        (List.perm_cons_erase hpin).countP_eq _
      have hcount := (h.pinCount_eq i p hp).trans (hperm.trans (pinsOn_cons _ _ _))
      rw [Function.update_apply]
      split_ifs with heq
      · rw [if_pos heq.symm] at hcount
        exact toNat_sub_of_le (heq ▸ hcount)
      · rw [if_neg (Ne.symm heq)] at hcount
        exact hcount

/-! ## Reading -/

/-- The bytes of an entry have been handed to `insert` under its key. -/
theorem Represents.asSlice_eq (h : Represents cfg pins inserted c lru) {i dp : ℕ}
    (hdp : dp ∈ lru i) :
    ∃ bytes, asSlice c.memory dp = some bytes ∧ (c.memory.key dp, bytes) ∈ inserted := by
  obtain ⟨bytes, hblock, hlength, hne, hmem⟩ := h.payload i dp hdp
  refine ⟨bytes, ?_, hmem⟩
  have hlen : c.memory.dataLen dp ≠ 0 := by
    intro hzero
    rw [hzero] at hlength
    exact hne (List.length_eq_zero_iff.mp hlength)
  rw [asSlice, if_neg (h.ne_zero hdp), entryPtr_eq (h.entry i dp hdp), Option.bind_eq_bind,
    Option.bind_some, if_neg (not_or.mpr ⟨h.dataPtr_ne_zero hdp, hlen⟩), hblock]
  dsimp only
  rw [← hlength, if_pos (Nat.le_refl _), List.take_length]

/-- A pin reads bytes that have been handed to `insert` under the key it was asked for. -/
theorem Represents.asSlice_pin (h : Represents cfg pins inserted c lru) {pin : Pin}
    (hpin : pin ∈ pins) :
    ∃ bytes, asSlice c.memory pin.entryDp = some bytes ∧ (pin.key, bytes) ∈ inserted := by
  obtain ⟨hmem, hkey⟩ := h.pinned pin hpin
  rw [← hkey]
  exact h.asSlice_eq hmem

/-- A lookup of a key that an entry has pins the entry. -/
theorem getPinned_hit (h : Represents cfg pins inserted c lru) {key : BlobCacheKey} {dp : ℕ}
    (hfound : entryOf c.memory (lru (shardIdx cfg.nShards key)) key = some dp) :
    getPinned cfg c key = some ((c.pin dp).hit key, some dp) := by
  have hne : (c.shards (shardIdx cfg.nShards key)).bucketArray ≠ 0 := by
    rcases h.chains (shardIdx cfg.nShards key) with ⟨-, hnil⟩ | ⟨hne, -⟩
    · have hmem := (entryOf_eq_some hfound).1
      rw [hnil] at hmem
      cases hmem
    · exact hne
  obtain ⟨head, hhead, hfind⟩ := find_spec h key hne
  rw [getPinned, if_neg hne, hhead, Option.bind_eq_bind, Option.bind_some, hfind, hfound,
    Option.bind_eq_bind, Option.bind_some]

theorem getPinned_miss (h : Represents cfg pins inserted c lru) {key : BlobCacheKey}
    (hfound : entryOf c.memory (lru (shardIdx cfg.nShards key)) key = none) :
    getPinned cfg c key = some (c.miss key, none) := by
  rw [getPinned]
  by_cases hzero : (c.shards (shardIdx cfg.nShards key)).bucketArray = 0
  · rw [if_pos hzero]
  · obtain ⟨head, hhead, hfind⟩ := find_spec h key hzero
    rw [if_neg hzero, hhead, Option.bind_eq_bind, Option.bind_some, hfind, hfound,
      Option.bind_eq_bind, Option.bind_some]

theorem getPinned_spec (h : Represents cfg pins inserted c lru) (backend : ℕ) (key : BlobCacheKey)
    (hfit : (pins.countP fun pin => pin.key == key) + 1 < 2 ^ 32) :
    ∃ c', getPinned cfg c key =
        some (c', entryOf c.memory (lru (shardIdx cfg.nShards key)) key) ∧
      Represents cfg
        (takePin pins backend key (entryOf c.memory (lru (shardIdx cfg.nShards key)) key))
        inserted c' lru := by
  cases hfound : entryOf c.memory (lru (shardIdx cfg.nShards key)) key with
  | none => exact ⟨c.miss key, getPinned_miss h hfound, h.miss key⟩
  | some dp =>
      obtain ⟨hmem, hkey⟩ := entryOf_eq_some hfound
      have hle := h.pinsOn_le dp
      rw [hkey] at hle
      exact ⟨_, getPinned_hit h hfound, (h.pin hmem hkey backend (by omega)).hit key⟩

/-! ## Allocators on one page -/

/-- A cache with one shard and an area of 4096 bytes. -/
def pageConfig : Config := ⟨1, 4096, by decide, by decide, by decide⟩

/-- Hands out given addresses while they are free. -/
def isFree (area : ℕ) (m : Memory) (dp size : ℕ) : Bool :=
  decide (0 < dp ∧ dp + size ≤ area ∧ size ≤ maxAllocSize) &&
    (List.range (dp + size)).all fun q =>
      match m.block q with
      | some b => decide (q + b.size ≤ dp)
      | none => true

theorem isFree_iff {area : ℕ} {m : Memory} {dp size : ℕ} :
    isFree area m dp size = true ↔ Fresh area m dp size := by
  rw [isFree, Bool.and_eq_true, decide_eq_true_iff, List.all_eq_true]
  constructor
  · rintro ⟨⟨hpos, harea, hsize⟩, hall⟩
    refine ⟨hpos, harea, hsize, fun q b hq => ?_⟩
    by_cases hlt : q < dp + size
    · have hq' := hall q (List.mem_range.mpr hlt)
      rw [hq] at hq'
      exact .inr (of_decide_eq_true hq')
    · exact .inl (not_lt.mp hlt)
  · intro h
    refine ⟨⟨h.pos, h.le_area, h.size_le⟩, fun q hq => ?_⟩
    cases hb : m.block q with
    | none => rfl
    | some b =>
        have hlt := List.mem_range.mp hq
        have hcases := h.disjoint q b hb
        exact decide_eq_true (by omega)

def Dsa.fixed (area : ℕ) (address : ℕ → ℕ) : Dsa area where
  allocate call m size := if isFree area m (address call) size then .ok (address call) else .invalid
  fresh call m size dp h := by
    split_ifs at h with hfree
    rw [← AllocOutcome.ok.inj h]
    exact isFree_iff.mp hfree

theorem Dsa.fixed_ok {area : ℕ} {address : ℕ → ℕ} {call size : ℕ} {m : Memory}
    (h : Fresh area m (address call) size) :
    (Dsa.fixed area address).allocate call m size = .ok (address call) :=
  if_pos (isFree_iff.mpr h)

def failingDsa (area : ℕ) : Dsa area where
  allocate _ _ _ := .error
  fresh _ _ _ _ h := by cases h

def firstKey : BlobCacheKey := ⟨1, 1, 0, 0, 0⟩

def secondKey : BlobCacheKey := ⟨2, 1, 0, 0, 0⟩

def firstAddress : ℕ → ℕ
  | 0 => 100
  | 1 => 1
  | _ => 81

/-! ## Runs -/

/-- A lookup does not take the `2 ^ 32`-th pin on a key. -/
def PinsFit (s : Sys) : Op cfg → Prop
  | .getPinned _ key => (s.pins.countP fun pin => pin.key == key) + 1 < 2 ^ 32
  | .insert .. => True
  | .release _ => True

theorem pinsFit_of_no_pins {s : Sys} (hs : s.pins = []) (op : Op cfg) : PinsFit s op := by
  cases op with
  | getPinned backend key =>
      show (s.pins.countP fun pin => pin.key == key) + 1 < 2 ^ 32
      rw [hs, List.countP_nil]
      omega
  | insert key bytes dsa => trivial
  | release pin => trivial

/-- The lists that represent the cache exist. -/
def Sound (cfg : Config) (s : Sys) : Prop :=
  ∃ lru, Represents cfg s.pins s.inserted s.cache lru

theorem step_sound {s : Sys} (hs : Sound cfg s) (op : Op cfg) (hfit : PinsFit s op) :
    step s op = .error .notHeld ∨ ∃ s', step s op = .ok s' ∧ Sound cfg s' := by
  obtain ⟨lru, h⟩ := hs
  cases op with
  | getPinned backend key =>
      obtain ⟨c', hget, hrep⟩ := getPinned_spec h backend key hfit
      right
      rw [step, hget]
      exact ⟨_, rfl, lru, hrep⟩
  | insert key bytes dsa =>
      obtain ⟨c', lru', hinsert, hrep⟩ := insert_spec h dsa key bytes
      right
      rw [step, hinsert]
      exact ⟨_, rfl, lru', hrep⟩
  | release pin =>
      by_cases hpin : pin ∈ s.pins
      · obtain ⟨m, hrelease, hrep⟩ := releasePin_spec h hpin
        right
        rw [step, if_pos hpin, hrelease]
        exact ⟨_, rfl, lru, hrep⟩
      · left
        rw [step, if_neg hpin]

theorem represents_init (cfg : Config) : Represents cfg [] [] Cache.init fun _ => [] := by
  constructor
  case list => exact fun _ => DoublyLinked.empty 0 _ _
  case chains => exact fun _ => .inl ⟨rfl, rfl⟩
  case separate =>
    constructor
    · intro p b hp
      cases hp
    · intro p q a b hp
      cases hp
  all_goals simp [Cache.init, payloadBytes]

theorem sound_init (cfg : Config) : Sound cfg Sys.init := ⟨fun _ => [], represents_init cfg⟩

theorem sound_run {s : Sys} (hs : Sound cfg s) {ops : List (Op cfg)}
    (hfit : Along step PinsFit s ops) : Sound cfg (run step s ops) := by
  apply invariant_run ?_ hs hfit
  intro s op s' hs hfit hstep
  rcases step_sound hs op hfit with herror | ⟨s'', hok, hs''⟩
  · rw [hstep] at herror
    cases herror
  · rw [hstep] at hok
    cases hok
    exact hs''

theorem next_insert_pins (s : Sys) (key : BlobCacheKey) (bytes : List UInt8)
    (dsa : Dsa cfg.maxBytes) : (next step s (.insert key bytes dsa)).pins = s.pins := by
  rw [next, step]
  cases insert dsa s.cache key bytes <;> rfl

/-- In every run the shards represent their lists, a hit reads bytes that have been inserted
under the key, and no step faults. -/
theorem run_represented (ops : List (Op cfg)) (hfit : Along step PinsFit Sys.init ops) :
    let s := run step Sys.init ops
    (∃ lru, Represents cfg s.pins s.inserted s.cache lru) ∧
      (∀ backend key c' dp, PinsFit s (.getPinned backend key : Op cfg) →
        getPinned cfg s.cache key = some (c', some dp) →
        ∃ bytes, asSlice c'.memory dp = some bytes ∧ (key, bytes) ∈ s.inserted) ∧
      ∀ op : Op cfg, PinsFit s op → step s op ≠ .error .fault := by
  have hsound := sound_run (sound_init cfg) hfit
  refine ⟨hsound, ?_, ?_⟩
  · intro backend key c' dp hfit' hget
    obtain ⟨lru, h⟩ := hsound
    obtain ⟨c'', hget', hrep⟩ := getPinned_spec h backend key hfit'
    rw [hget'] at hget
    obtain ⟨rfl, hfound⟩ := Prod.mk.inj (Option.some.inj hget)
    rw [hfound] at hrep
    exact hrep.asSlice_pin (List.mem_cons_self : (⟨backend, dp, key⟩ : Pin) ∈ _)
  · intro op hfit' hfault
    rcases step_sound hsound op hfit' with herror | ⟨s', hok, -⟩
    · rw [hfault] at herror
      cases herror
    · rw [hfault] at hok
      cases hok

def putThenGet : List (Op pageConfig) :=
  [.insert firstKey [7] (Dsa.fixed pageConfig.maxBytes firstAddress), .getPinned 0 firstKey]

theorem putThenGet_fits : Along step PinsFit Sys.init putThenGet := by
  refine ⟨trivial, ?_, trivial⟩
  apply pinsFit_of_no_pins
  exact next_insert_pins Sys.init firstKey [7] (Dsa.fixed pageConfig.maxBytes firstAddress)

theorem run_represented_putThenGet :
    ∃ lru, Represents pageConfig (run step Sys.init putThenGet).pins
      (run step Sys.init putThenGet).inserted (run step Sys.init putThenGet).cache lru :=
  (run_represented putThenGet putThenGet_fits).1

/-! ## What a pin reads -/

/-- The invariant holds with what is needed of `inserted`. -/
theorem Represents.filter (h : Represents cfg pins inserted c lru)
    (keep : BlobCacheKey × List UInt8 → Bool)
    (hkeep : ∀ i, ∀ dp ∈ lru i, ∀ bytes, c.memory.block (c.memory.dataPtr dp) =
      some (.payload bytes) → keep (c.memory.key dp, bytes) = true) :
    Represents cfg pins (inserted.filter keep) c lru :=
  { h with
    payload := fun i dp hdp => by
      obtain ⟨bytes, hblock, hlength, hne, hmem⟩ := h.payload i dp hdp
      exact ⟨bytes, hblock, hlength, hne,
        List.mem_filter.mpr ⟨hmem, hkeep i dp hdp bytes hblock⟩⟩ }

theorem entryOf_of_mem (h : Represents cfg pins inserted c lru) {i dp : ℕ} (hdp : dp ∈ lru i) :
    entryOf c.memory (lru i) (c.memory.key dp) = some dp := by
  cases hfound : entryOf c.memory (lru i) (c.memory.key dp) with
  | none => exact absurd rfl (entryOf_eq_none hfound dp hdp)
  | some p =>
      obtain ⟨hp, hkey⟩ := entryOf_eq_some hfound
      rw [h.key_inj i p hp dp hdp hkey]

theorem insert_present (h : Represents cfg pins inserted c lru) (dsa : Dsa cfg.maxBytes)
    {key : BlobCacheKey} {dp : ℕ} (bytes : List UInt8)
    (hfound : entryOf c.memory (lru (shardIdx cfg.nShards key)) key = some dp) :
    insert dsa c key bytes = some c := by
  rw [insert]
  split_ifs with hempty
  · rfl
  · have hne : (c.shards (shardIdx cfg.nShards key)).bucketArray ≠ 0 := by
      rcases h.chains (shardIdx cfg.nShards key) with ⟨-, hnil⟩ | ⟨hne, -⟩
      · have hmem := (entryOf_eq_some hfound).1
        rw [hnil] at hmem
        cases hmem
      · exact hne
    obtain ⟨head, hhead, hfind⟩ := find_spec h key hne
    have hensure : ensureBuckets dsa c (shardIdx cfg.nShards key) = .ok c := if_pos hne
    rw [hensure]
    dsimp only
    rw [hhead, Option.bind_eq_bind, Option.bind_some, hfind, hfound, Option.bind_eq_bind,
      Option.bind_some]

/-- The cache is represented with `bytes` as the only ones that have been inserted under the
key of a pin. -/
def Reads (cfg : Config) (pin : Pin) (bytes : List UInt8) (s : Sys) : Prop :=
  pin ∈ s.pins ∧ ∃ inserted lru, Represents cfg s.pins inserted s.cache lru ∧
    ∀ other, (pin.key, other) ∈ inserted → other = bytes

theorem Reads.asSlice_eq {pin : Pin} {bytes : List UInt8} {s : Sys} (h : Reads cfg pin bytes s) :
    asSlice s.cache.memory pin.entryDp = some bytes := by
  obtain ⟨hpin, inserted, lru, hrep, honly⟩ := h
  obtain ⟨other, hread, hmem⟩ := hrep.asSlice_pin hpin
  rw [hread, honly other hmem]

theorem Sound.reads {s : Sys} (hs : Sound cfg s) {pin : Pin} (hpin : pin ∈ s.pins) :
    ∃ bytes, Reads cfg pin bytes s := by
  obtain ⟨lru, h⟩ := hs
  obtain ⟨hmem, hkey⟩ := h.pinned pin hpin
  obtain ⟨bytes, hblock, -⟩ := h.payload _ _ hmem
  refine ⟨bytes, hpin, _, lru, h.filter (fun p => p.1 != pin.key || p.2 == bytes) ?_, ?_⟩
  · intro i dp hdp other hother
    by_cases heq : s.cache.memory.key dp = pin.key
    · have hi : i = shardIdx cfg.nShards pin.key := by rw [← h.shard i dp hdp, heq]
      rw [hi] at hdp
      have hdpPin := h.key_inj _ dp hdp _ hmem (heq.trans hkey.symm)
      rw [hdpPin, hblock] at hother
      obtain rfl := Block.payload.inj (Option.some.inj hother)
      simp
    · simp [heq]
  · intro other hother
    have hkeep := (List.mem_filter.mp hother).2
    simpa using hkeep

theorem Reads.step {pin : Pin} {bytes : List UInt8} {s s' : Sys} {op : Op cfg}
    (h : Reads cfg pin bytes s) (hfit : PinsFit s op) (hstep : step s op = .ok s')
    (hpin : pin ∈ s'.pins) : Reads cfg pin bytes s' := by
  obtain ⟨hpin', inserted, lru, hrep, honly⟩ := h
  cases op with
  | getPinned backend key =>
      obtain ⟨c', hget, hrep'⟩ := getPinned_spec hrep backend key hfit
      rw [BlobCache.step, hget] at hstep
      obtain rfl := Except.ok.inj hstep
      exact ⟨hpin, inserted, lru, hrep', honly⟩
  | insert key other dsa =>
      by_cases hkey : key = pin.key
      · obtain ⟨hmem, hpinKey⟩ := hrep.pinned pin hpin'
        have hfound := entryOf_of_mem hrep hmem
        rw [hpinKey] at hfound
        subst hkey
        rw [BlobCache.step, insert_present hrep dsa other hfound] at hstep
        obtain rfl := Except.ok.inj hstep
        exact ⟨hpin, inserted, lru, hrep, honly⟩
      · obtain ⟨c', lru', hinsert, hrep'⟩ := insert_spec hrep dsa key other
        rw [BlobCache.step, hinsert] at hstep
        obtain rfl := Except.ok.inj hstep
        refine ⟨hpin, _, lru', hrep', fun bytes' hbytes' => ?_⟩
        rcases List.mem_cons.mp hbytes' with heq | hmem
        · exact absurd (Prod.mk.inj heq).1.symm hkey
        · exact honly bytes' hmem
  | release released =>
      rw [BlobCache.step] at hstep
      split_ifs at hstep with hheld
      obtain ⟨m, hrelease, hrep'⟩ := releasePin_spec hrep hheld
      rw [hrelease] at hstep
      obtain rfl := Except.ok.inj hstep
      exact ⟨hpin, inserted, lru, hrep', honly⟩

/-! ## A pin beyond the range of the counter -/

def pageLru : ℕ → List ℕ := Function.update (fun _ => []) 0 [1]

theorem insert_first : ∃ c, insert (Dsa.fixed pageConfig.maxBytes firstAddress) Cache.init
      firstKey [7] = some c ∧
    Represents pageConfig [] [(firstKey, [7])] c pageLru := by
  have harray : Fresh pageConfig.maxBytes Cache.init.memory 100 (8 * bucketsPerShard) :=
    ⟨by decide, by decide, by decide, fun _ _ hq => by cases hq⟩
  have hensure : ensureBuckets (Dsa.fixed pageConfig.maxBytes firstAddress) Cache.init 0 =
      .ok { Cache.init with
        memory := Cache.init.memory.newBuckets 100
        shards := Function.update Cache.init.shards 0
          { Cache.init.shards 0 with bucketArray := 100 } } := by
    have hzero : ¬ (Cache.init.shards 0).bucketArray ≠ 0 := not_not.mpr rfl
    rw [ensureBuckets, if_neg hzero, Dsa.fixed_ok harray]
    rfl
  have hentry : Fresh pageConfig.maxBytes (Cache.init.memory.newBuckets 100) 1 80 := by
    refine ⟨by decide, by decide, by decide, fun q b hq => ?_⟩
    change Function.update Cache.init.memory.block 100 _ q = some b at hq
    rw [Function.update_apply] at hq
    split_ifs at hq with heq
    · omega
    · cases hq
  have hdata : Fresh pageConfig.maxBytes ((Cache.init.memory.newBuckets 100).newEntry 1) 81 1 := by
    refine ⟨by decide, by decide, by decide, fun q b hq => ?_⟩
    change Function.update (Function.update Cache.init.memory.block 100 _) 1 (some .entry) q =
      some b at hq
    rw [Function.update_apply, Function.update_apply] at hq
    split_ifs at hq with heq heq'
    · rw [heq, ← Option.some.inj hq]
      exact .inr (Nat.le_refl _)
    · omega
    · cases hq
  exact insert_links (represents_init pageConfig) _ (List.cons_ne_nil _ _) hensure rfl
    (by decide) (Dsa.fixed_ok hentry) (Dsa.fixed_ok hdata)

def firstLookup : Op pageConfig := .getPinned 0 firstKey

def firstPin : Pin := ⟨0, 1, firstKey⟩

theorem entryOf_first {c : Cache}
    (h : Represents pageConfig pins [(firstKey, [7])] c pageLru) :
    c.memory.key 1 = firstKey ∧ entryOf c.memory (pageLru 0) firstKey = some 1 := by
  have hmem : 1 ∈ pageLru 0 := List.mem_cons_self
  have hkey : c.memory.key 1 = firstKey := by
    obtain ⟨bytes, -, -, -, hin⟩ := h.payload 0 1 hmem
    exact (Prod.mk.inj (List.mem_singleton.mp hin)).1
  refine ⟨hkey, ?_⟩
  have hchain : chainOf c.memory (bucketIdx firstKey) (pageLru 0) = [1] := by
    show List.filter _ [1] = [1]
    rw [List.filter_singleton, hkey, beq_self_eq_true]
    rfl
  rw [entryOf, hchain, List.find?_cons, hkey]
  rfl

theorem next_firstLookup {s : Sys} {c : Cache}
    (hget : getPinned pageConfig s.cache firstKey = some (c, some 1)) :
    next step s firstLookup = { s with cache := c, pins := firstPin :: s.pins } := by
  rw [next, firstLookup, step, hget]
  rfl

theorem run_replicate_succ {ω : Type*} {ε : Type*} {f : Sys → ω → Except ε Sys} (s : Sys) (n : ℕ)
    (op : ω) : run f s (List.replicate (n + 1) op) = next f (run f s (List.replicate n op)) op := by
  rw [List.replicate_succ', run, List.foldl_append]
  rfl

theorem lookups_first {s : Sys} (hpins : s.pins = [])
    (h : Represents pageConfig [] [(firstKey, [7])] s.cache pageLru) {n : ℕ} (hn : n < 2 ^ 32) :
    (run step s (List.replicate n firstLookup)).pins =
        List.replicate n firstPin ∧
      Represents pageConfig (List.replicate n firstPin) [(firstKey, [7])]
        (run step s (List.replicate n firstLookup)).cache
        pageLru := by
  induction n with
  | zero => exact ⟨hpins, h⟩
  | succ n ih =>
      obtain ⟨hpins', hrep⟩ := ih (by omega)
      obtain ⟨hkey, hfound⟩ := entryOf_first hrep
      have hpinsOn : pinsOn (List.replicate n firstPin) 1 = n := by
        rw [pinsOn, List.countP_replicate]
        rfl
      have hget := @getPinned_hit _ _ _ _ _ hrep firstKey 1 hfound
      rw [run_replicate_succ, next_firstLookup hget]
      dsimp only
      rw [hpins', List.replicate_succ]
      refine ⟨rfl, (hrep.pin ?_ hkey 0 ?_).hit firstKey⟩
      · exact (entryOf_eq_some hfound).1
      · rw [hpinsOn]
        exact hn

theorem evictInShard_single (h : Represents cfg pins inserted c lru) {i dp bytesNeeded : ℕ}
    (hlru : lru i = [dp]) (hpin : c.memory.pinCount dp = 0) (hneeded : 0 < bytesNeeded)
    (hle : bytesNeeded ≤ (c.memory.dataLen dp).toNat) :
    ∃ c' freed, evictInShard c i bytesNeeded = some (c', freed) ∧ freed ≠ 0 ∧
      Represents cfg pins inserted c' (Function.update lru i []) ∧
      c'.totalBytes.toNat + (c.memory.dataLen dp).toNat = c.totalBytes.toNat ∧
      c'.memory.block dp = none := by
  have hmem : dp ∈ lru i := by simp [hlru]
  have hlist := h.list i
  rw [hlru] at hlist
  have htail : (c.shards i).lruTail = dp := hlist.backward.start_eq
  have hprev : c.memory.lruPrev dp = 0 := (show DoublyLinked _ _ _ _ _ ([] ++ _) from hlist).prev_eq
  obtain ⟨c', hevict, hrep, hbytes, -, -, hblock⟩ :=
    evictEntry_spec h (show lru i = [] ++ dp :: [] from hlru) hpin
  refine ⟨c', satAdd 0 (c.memory.dataLen dp).toNat, ?_, ?_, hrep, hbytes, hblock⟩
  · have hfuel : loopFuel = (2 ^ 35 - 2) + 1 + 1 := rfl
    rw [evictInShard, htail, hfuel, evictFrom, if_pos ⟨hneeded, h.ne_zero hmem⟩,
      entryPtr_eq (h.entry i dp hmem), Option.bind_eq_bind, Option.bind_some]
    dsimp only
    rw [if_pos hpin, hevict, Option.bind_eq_bind, Option.bind_some, hprev, evictFrom,
      if_neg fun hcond => hcond.2 rfl]
  · unfold satAdd
    omega

/-- The second key comes with a payload that takes the whole area. -/
def secondBytes : List UInt8 := List.replicate 4096 0

theorem insert_second {c : Cache}
    (h : Represents pageConfig [] [(firstKey, [7])] c pageLru) :
    ∃ c', insert (failingDsa pageConfig.maxBytes) c secondKey secondBytes = some c' ∧
      c'.memory.block 1 = none ∧ (c'.shards 0).lruHead = 0 := by
  have hmem : 1 ∈ pageLru 0 := List.mem_cons_self
  obtain ⟨hkey, -⟩ := entryOf_first h
  have hpin : c.memory.pinCount 1 = 0 := BitVec.eq_of_toNat_eq (h.pinCount_eq 0 1 hmem)
  have hlength : (c.memory.dataLen 1).toNat = 1 := by
    obtain ⟨bytes, -, hlen, -, hin⟩ := h.payload 0 1 hmem
    rw [← hlen, (Prod.mk.inj (List.mem_singleton.mp hin)).2]
    rfl
  have htotal : c.totalBytes.toNat = 1 := by
    rw [h.total_bytes]
    show ∑ i ∈ Finset.range 1, payloadBytes c.memory (pageLru i) = 1
    rw [Finset.sum_range_one]
    exact (Nat.add_zero _).trans hlength
  have hne : (c.shards 0).bucketArray ≠ 0 := by
    rcases h.chains 0 with ⟨-, hnil⟩ | ⟨hne, -⟩
    · rw [hnil] at hmem
      cases hmem
    · exact hne
  have habsent : entryOf c.memory (pageLru 0) secondKey = none := by
    cases hfound : entryOf c.memory (pageLru 0) secondKey with
    | none => rfl
    | some dp =>
        obtain ⟨hdp, hdpKey⟩ := entryOf_eq_some hfound
        rw [List.mem_singleton.mp hdp, hkey] at hdpKey
        exact absurd hdpKey (by decide)
  obtain ⟨head, hhead, hfind⟩ := find_spec h secondKey hne
  obtain ⟨c', freed, hevict, hfreed, hrep, hbytes, hblock⟩ :=
    evictInShard_single h (show pageLru 0 = [1] from rfl) hpin Nat.one_pos hlength.ge
  have htotal' : c'.totalBytes.toNat = 0 := by omega
  have hlen : secondBytes.length = 4096 := List.length_replicate
  have halloc : ∀ fuel, allocateEntry (failingDsa pageConfig.maxBytes) 0 secondBytes
      (fuel + 1 + 1) 1 c = some (.error c') := by
    intro fuel
    have hfull : pageConfig.maxBytes < satAdd c.totalBytes.toNat secondBytes.length := by
      rw [htotal, hlen]
      decide
    have hroom : ¬ pageConfig.maxBytes < satAdd c'.totalBytes.toNat secondBytes.length := by
      rw [htotal', hlen]
      decide
    have hneeded : satAdd c.totalBytes.toNat secondBytes.length - pageConfig.maxBytes = 1 := by
      rw [htotal, hlen]
      rfl
    rw [allocateEntry, if_pos hfull, hneeded, evictAndRetry, hevict, Option.bind_eq_bind,
      Option.bind_some, if_neg hfreed, allocateEntry, if_neg hroom]
    rfl
  refine ⟨c', ?_, hblock, (hrep.list 0).forward⟩
  have hnonempty : ¬ secondBytes.isEmpty = true := by
    rw [List.isEmpty_iff_length_eq_zero, hlen]
    decide
  have hensure : ensureBuckets (failingDsa pageConfig.maxBytes) c 0 = .ok c := if_pos hne
  have hshard : shardIdx pageConfig.nShards secondKey = 0 := Nat.and_zero _
  rw [insert, if_neg hnonempty, hshard, hensure]
  dsimp only
  rw [hhead, Option.bind_eq_bind, Option.bind_some, hfind, habsent, Option.bind_eq_bind,
    Option.bind_some]
  have hfuel : loopFuel = (2 ^ 35 - 2) + 1 + 1 := rfl
  dsimp only
  rw [hfuel, halloc, Option.bind_eq_bind, Option.bind_some]

/-- The first key is inserted, looked up, and a second key needs its memory. -/
def lookupsThenInsert (n : ℕ) : List (Op pageConfig) :=
  .insert firstKey [7] (Dsa.fixed pageConfig.maxBytes firstAddress) ::
    (List.replicate n firstLookup ++
      [.insert secondKey secondBytes (failingDsa pageConfig.maxBytes)])

theorem run_lookupsThenInsert (n : ℕ) :
    run step Sys.init (lookupsThenInsert n) =
      next step
        (run step
          (next step Sys.init (.insert firstKey [7] (Dsa.fixed pageConfig.maxBytes firstAddress)))
          (List.replicate n firstLookup))
        (.insert secondKey secondBytes (failingDsa pageConfig.maxBytes)) := by
  rw [lookupsThenInsert, run, List.foldl_cons, List.foldl_append]
  rfl

theorem freed_of_wrap {n m : ℕ} (hn : n + 1 = m) (hm : m = 2 ^ 32) :
    firstPin ∈ (run step Sys.init (lookupsThenInsert m)).pins ∧
      (run step Sys.init (lookupsThenInsert m)).cache.memory.block firstPin.entryDp = none ∧
      ((run step Sys.init (lookupsThenInsert m)).cache.shards 0).lruHead = 0 := by
  obtain ⟨c, hinsert, hrep⟩ := insert_first
  have hfirst : next step Sys.init
      (.insert firstKey [7] (Dsa.fixed pageConfig.maxBytes firstAddress) : Op pageConfig) =
      ⟨c, [], [(firstKey, [7])]⟩ := by
    show next step ⟨Cache.init, [], []⟩ _ = _
    rw [next, step]
    dsimp only
    rw [hinsert]
  obtain ⟨hpins, hrep'⟩ := lookups_first (s := ⟨c, [], [(firstKey, [7])]⟩) rfl hrep
    (n := n) (by omega)
  -- the last lookup
  have hlast := next_firstLookup
    (@getPinned_hit _ _ _ _ _ hrep' firstKey 1 (entryOf_first hrep').2)
  rw [← run_replicate_succ, hn] at hlast
  generalize run step (⟨c, [], [(firstKey, [7])]⟩ : Sys) (List.replicate n firstLookup) = s
    at hpins hrep' hlast
  have hwrapped : Represents pageConfig [] [(firstKey, [7])] ((s.cache.pin 1).hit firstKey)
      pageLru := by
    apply Represents.hit
    apply hrep'.repin
    · intro pin hpin
      cases hpin
    · intro i dp hdp
      have hdp1 : dp = 1 := by
        rw [pageLru, Function.update_apply] at hdp
        split_ifs at hdp
        · exact List.mem_singleton.mp hdp
        · cases hdp
      have hcount := hrep'.pinCount_eq 0 1 List.mem_cons_self
      have hall : pinsOn (List.replicate n firstPin) 1 = n := by
        rw [pinsOn, List.countP_replicate]
        rfl
      have hone : (1 : BitVec 32).toNat = 1 := rfl
      rw [hdp1, Function.update_self, BitVec.toNat_add, hcount, hall, hone, hn, hm, Nat.mod_self]
      rfl
  obtain ⟨c', hinsert', hblock, hhead⟩ := insert_second hwrapped
  have hrun : run step Sys.init (lookupsThenInsert m) =
      ⟨c', firstPin :: s.pins, (secondKey, secondBytes) :: s.inserted⟩ := by
    rw [run_lookupsThenInsert, hfirst, hlast, next, step]
    dsimp only
    rw [hinsert']
  rw [hrun]
  exact ⟨List.mem_cons_self, hblock, hhead⟩

theorem asSlice_of_freed {m : Memory} {dp : ℕ} (hne : dp ≠ 0) (hfreed : m.block dp = none) :
    asSlice m dp = none := by
  have hptr : m.entryPtr dp = none := by rw [Memory.entryPtr, hfreed]
  rw [asSlice, if_neg hne, hptr]
  rfl

/-- With `2 ^ 32` pins the counter is zero again: the entry is freed under its pins. -/
theorem pinned_entry_freed :
    firstPin ∈ (run step Sys.init (lookupsThenInsert (2 ^ 32))).pins ∧
      asSlice (run step Sys.init (lookupsThenInsert (2 ^ 32))).cache.memory firstPin.entryDp =
        none ∧
      ((run step Sys.init (lookupsThenInsert (2 ^ 32))).cache.shards 0).lruHead = 0 := by
  obtain ⟨hpin, hfreed, hhead⟩ := freed_of_wrap (n := 2 ^ 32 - 1) (m := 2 ^ 32) (by omega) rfl
  exact ⟨hpin, asSlice_of_freed Nat.one_ne_zero hfreed, hhead⟩

end DeltaX.BlobCache
