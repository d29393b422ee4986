import DeltaX.Copy.PipelineMoves
import Mathlib.Algebra.BigOperators.Group.Multiset.Basic
import Mathlib.Tactic.Abel
/-!
# Rows and segments on their way

A row that was routed is in a message, in a buffer or in a segment that was cut off, and such a
segment is on its way or written.  Every move keeps these accounts.
-/

namespace DeltaX.Copy.ParquetPipeline

open Column DeltaX.Partition DeltaX.Partition.Streaming Support.Wrapping Routing Backfill Loading
open Parquet

variable {state : BackfillState} {files : List (ParquetFile state)} {s s' : Pipeline state}

/-! ## What is on its way -/

/-- What a pool of threads holds changes by what one of them holds. -/
theorem sum_map_set {α M : Type*} [AddCommMonoid M] (f : α → M) {pool : List α} {i : ℕ} {a : α}
    (h : pool[i]? = some a) (b : α) :
    ((pool.set i b).map f).sum + f a = (pool.map f).sum + f b := by
  induction pool generalizing i with
  | nil => cases h
  | cons c pool ih =>
      cases i with
      | zero =>
          obtain rfl := Option.some.inj h
          rw [List.set_cons_zero, List.map_cons, List.map_cons, List.sum_cons, List.sum_cons]
          ac_rfl
      | succ i =>
          rw [List.set_cons_succ, List.map_cons, List.map_cons, List.sum_cons, List.sum_cons,
            add_assoc, ih h, add_assoc]

theorem sum_map_eq_zero {α M : Type*} [AddCommMonoid M] {f : α → M} {pool : List α}
    (h : ∀ a ∈ pool, f a = 0) : (pool.map f).sum = 0 := by
  rw [List.map_congr_left h, List.map_const', List.sum_replicate, nsmul_zero]

abbrev Rows : Type := Multiset (List (Option Stored))

def batchRows (p : ℕ) (b : RoutedBatch state) : Rows :=
  if b.partitionIdx = p then b.batch.rows else 0

def messageRows (p : ℕ) : Message state → Rows
  | .ok b => batchRows p b
  | .error _ => 0

def decoderRows (p : ℕ) : Decoder state → Rows
  | .sending batches _ => (batches.map (batchRows p)).sum
  | _ => 0

def fileRows (p : ℕ) (file : ParquetFile state) : Rows :=
  ((decodeFile file).1.map (batchRows p)).sum

/-- The rows of a partition that the main thread has not received yet. -/
def pending (files : List (ParquetFile state)) (s : Pipeline state) (p : ℕ) : Rows :=
  (s.route.map (messageRows p)).sum + (s.decoders.map (decoderRows p)).sum +
    ((files.drop s.nextFile).map (fileRows p)).sum

def mainItems : Main state → Multiset CompressedSegment
  | .shipping item _ _ => {compressSegment item}
  | _ => 0

def heldItems : Compressor state → Multiset CompressedSegment
  | .holding item => {compressSegment item}
  | _ => 0

/-- The segments that were cut off and are not written yet. -/
def inFlight (s : Pipeline state) : Multiset CompressedSegment :=
  mainItems s.main + s.segs.map compressSegment + (s.compressors.map heldItems).sum +
    s.compressed

theorem DecoderMove.pending_eq {i : ℕ} (h : DecoderMove files s i s') (p : ℕ) :
    pending files s' p = pending files s p := by
  cases h with
  | take file hat hfile =>
      have hset := sum_map_set (decoderRows p) hat
        (.sending (decodeFile file).1 (decodeFile file).2)
      obtain ⟨hlt, rfl⟩ := List.getElem?_eq_some_iff.mp hfile
      have hready : decoderRows p (.ready : Decoder state) = 0 := rfl
      have hsending : decoderRows p (.sending (decodeFile files[s.nextFile]).1
        (decodeFile files[s.nextFile]).2) = fileRows p files[s.nextFile] := rfl
      rw [hready, add_zero, hsending] at hset
      rw [pending, pending, List.drop_eq_getElem_cons hlt, List.map_cons, List.sum_cons]
      dsimp only
      rw [hset]
      abel
  | stop hat hnone =>
      have hset := sum_map_set (decoderRows p) hat .finished
      have hready : decoderRows p (.ready : Decoder state) = 0 := rfl
      have hfinished : decoderRows p (.finished : Decoder state) = 0 := rfl
      rw [hready, hfinished, add_zero, add_zero] at hset
      rw [pending, pending, List.drop_eq_nil_of_le hnone,
        List.drop_eq_nil_of_le (hnone.trans (Nat.le_succ _))]
      dsimp only
      rw [hset]
  | next hat =>
      have hset := sum_map_set (decoderRows p) hat .ready
      have hready : decoderRows p (.ready : Decoder state) = 0 := rfl
      have hsent : decoderRows p (.sending [] (.ok ()) : Decoder state) = 0 := rfl
      rw [hready, hsent, add_zero, add_zero] at hset
      rw [pending, pending]
      dsimp only
      rw [hset]
  | fail e hat hroom =>
      have hset := sum_map_set (decoderRows p) hat .finished
      have hfinished : decoderRows p (.finished : Decoder state) = 0 := rfl
      have hsent : decoderRows p (.sending [] (.error e) : Decoder state) = 0 := rfl
      have hmessage : messageRows p (.error e : Message state) = 0 := rfl
      rw [hfinished, hsent, add_zero, add_zero] at hset
      rw [pending, pending]
      dsimp only
      rw [hset, List.map_append, List.sum_append, List.map_singleton, List.sum_singleton,
        hmessage, add_zero]
  | send b batches result hat hroom =>
      have hset := sum_map_set (decoderRows p) hat (.sending batches result)
      have hsending : decoderRows p (.sending (b :: batches) result) =
          batchRows p b + decoderRows p (.sending batches result) := List.sum_cons
      have hmessage : messageRows p (.ok b) = batchRows p b := rfl
      rw [hsending, ← add_assoc] at hset
      have hsent := add_right_cancel hset
      rw [pending, pending]
      dsimp only
      rw [List.map_append, List.sum_append, List.map_singleton, List.sum_singleton, hmessage,
        ← hsent]
      abel

theorem CompressorMove.inFlight_eq {i : ℕ} (h : CompressorMove s i s') :
    inFlight s' = inFlight s := by
  have hwaiting : heldItems (.waiting : Compressor state) = 0 := rfl
  have hfinished : heldItems (.finished : Compressor state) = 0 := rfl
  cases h with
  | take item segs hat hsegs =>
      have hset := sum_map_set heldItems hat (.holding item)
      have hholding : heldItems (.holding item) = {compressSegment item} := rfl
      rw [hwaiting, add_zero, hholding] at hset
      rw [inFlight, inFlight, hsegs, List.map_cons, ← Multiset.cons_coe,
        ← Multiset.singleton_add]
      dsimp only
      rw [hset]
      abel
  | stop hat hsegs hclosed =>
      have hset := sum_map_set heldItems hat .finished
      rw [hwaiting, hfinished, add_zero, add_zero] at hset
      rw [inFlight, inFlight]
      dsimp only
      rw [hset]
  | send item hat hroom =>
      have hset := sum_map_set heldItems hat .waiting
      have hholding : heldItems (.holding item) = {compressSegment item} := rfl
      rw [hwaiting, add_zero, hholding] at hset
      rw [inFlight, inFlight, ← hset]
      dsimp only
      rw [← Multiset.coe_add, Multiset.coe_singleton]
      abel

/-! ## Accounts -/

/-- The results for the cuts of a partition. -/
def compressedOf (p : ℕ) (cuts : List state.Batch) : List CompressedSegment :=
  cuts.mapIdx fun i c => compressSegment ⟨c, wrapI32 (i + 1), p⟩

theorem compressedOf_concat (p : ℕ) (cuts : List state.Batch) (c : state.Batch) :
    compressedOf p (cuts ++ [c]) =
      compressedOf p cuts ++ [compressSegment ⟨c, wrapI32 (cuts.length + 1), p⟩] := by
  rw [compressedOf, List.mapIdx_concat, compressedOf]

/-- These results have been written to the buffer. -/
structure Written (buf : PartitionBuffer state) (css : List CompressedSegment) : Prop where
  wrote : Wrote buf (css.map CompressedSegment.stored)
  totalRows : buf.totalRows = (css.map fun cs => (cs.rowCount : ℤ)).sum

theorem Written.write {buf : PartitionBuffer state} {css : List CompressedSegment}
    (h : Written buf css) (cs : CompressedSegment) :
    Written (buf.writeCompressedSegment cs) (css ++ [cs]) := by
  obtain ⟨hwrote, htotal⟩ := writeCompressedSegment_spec h.wrote cs
  constructor
  · rw [List.map_append]
    exact hwrote
  · rw [htotal, h.totalRows, List.map_append, List.sum_append, List.map_singleton,
      List.sum_singleton]

/-- Rows join or leave the columns. -/
theorem Written.setBatch {buf : PartitionBuffer state} {css : List CompressedSegment}
    (h : Written buf css) (batch : state.Batch) : Written { buf with batch := batch } css :=
  ⟨⟨h.wrote.metas, h.wrote.blobs⟩, h.totalRows⟩

/-- The segments of a partition among some. -/
abbrev ofPartition (p : ℕ) (css : Multiset CompressedSegment) : Multiset CompressedSegment :=
  css.filter fun cs => cs.partitionIdx = p

/-- With `cuts` cut off so far, every row and every segment is somewhere, once. -/
structure Accounts (files : List (ParquetFile state)) (s : Pipeline state)
    (cuts : ℕ → List state.Batch) : Prop where
  rows : ∀ p, pending files s p + (s.bufs p).batch.rows + (cuts p).flatMap Columns.rows =
    (files.map (fileRows p)).sum
  segments : ∀ p, ∃ css, Written (s.bufs p) css ∧
    ofPartition p (inFlight s) + css = compressedOf p (cuts p)
  next : ∀ p, s.nextSegIds p = wrapI32 ((cuts p).length + 1)
  nonempty : ∀ p, ∀ c ∈ cuts p, 0 < c.numRows

variable {cuts : ℕ → List state.Batch}

theorem Accounts.congr (h : Accounts files s cuts)
    (hpending : ∀ p, pending files s' p = pending files s p) (hflight : inFlight s' = inFlight s)
    (hbufs : s'.bufs = s.bufs) (hnext : s'.nextSegIds = s.nextSegIds) :
    Accounts files s' cuts where
  rows p := by
    rw [hpending, hbufs]
    exact h.rows p
  segments p := by
    rw [hflight, hbufs]
    exact h.segments p
  next p := by
    rw [hnext]
    exact h.next p
  nonempty := h.nonempty

theorem Accounts.decoder (h : Accounts files s cuts) {i : ℕ} (hmove : DecoderMove files s i s') :
    Accounts files s' cuts := by
  have hpending := hmove.pending_eq
  cases hmove <;> exact h.congr hpending rfl rfl rfl

theorem Accounts.compressor (h : Accounts files s cuts) {i : ℕ} (hmove : CompressorMove s i s') :
    Accounts files s' cuts := by
  have hflight := hmove.inFlight_eq
  cases hmove <;> exact h.congr (fun _ => rfl) hflight rfl rfl

theorem Goto.mainItems_eq {main main' : Main state} (h : Goto s main main') :
    mainItems main' = mainItems main := by
  cases h <;> rfl

theorem Writes.mainItems_eq {main main' : Main state} (h : Writes main main') :
    mainItems main' = mainItems main := by
  cases h <;> rfl

theorem Cuts.mainItems_eq {main : Main state} {p : ℕ} {batch rest : state.Batch} {resume : Resume}
    (h : Cuts s main p batch rest resume) : mainItems main = 0 := by
  cases h <;> rfl

/-- A cut takes its rows from the front of the buffer. -/
theorem Cuts.rows_eq {main : Main state} {p : ℕ} {batch rest : state.Batch} {resume : Resume}
    (h : Cuts s main p batch rest resume) : batch.rows ++ rest.rows = (s.bufs p).batch.rows := by
  cases h with
  | split p hfull => rw [Columns.rows_keep, Columns.rows_splitOff, List.take_append_drop]
  | flush p hlt hpos => rw [Columns.rows_empty, List.append_nil]

theorem Cuts.pos {main : Main state} {p : ℕ} {batch rest : state.Batch} {resume : Resume}
    (h : Cuts s main p batch rest resume) : 0 < batch.numRows := by
  cases h with
  | split p hfull => exact state.plan.segmentSize_pos
  | flush p hlt hpos => exact hpos

theorem Accounts.write (h : Accounts files s cuts) {cs : CompressedSegment}
    {compressed : List CompressedSegment} {main' : Main state}
    (hcompressed : s.compressed = cs :: compressed) (hwrites : Writes s.main main') :
    Accounts files { s with
      compressed
      bufs := Function.update s.bufs cs.partitionIdx
        ((s.bufs cs.partitionIdx).writeCompressedSegment cs)
      main := main' } cuts where
  rows p := by
    have hrows := h.rows p
    show pending files s p + (Function.update s.bufs _ _ p).batch.rows + _ = _
    rw [Function.update_apply]
    split_ifs with hp
    · rw [batch_writeCompressedSegment, ← hp]
      exact hrows
    · exact hrows
  segments p := by
    obtain ⟨css, hwritten, hsum⟩ := h.segments p
    generalize hs' : { s with
      compressed
      bufs := Function.update s.bufs cs.partitionIdx
        ((s.bufs cs.partitionIdx).writeCompressedSegment cs)
      main := main' } = s'
    have hflight : inFlight s = inFlight s' + {cs} := by
      rw [← hs', inFlight, inFlight, hcompressed, ← Multiset.cons_coe,
        ← Multiset.singleton_add, ← hwrites.mainItems_eq]
      abel
    have hbuf : s'.bufs p = if p = cs.partitionIdx then
        (s.bufs cs.partitionIdx).writeCompressedSegment cs else s.bufs p := by
      rw [← hs']
      exact Function.update_apply _ _ _ _
    rw [hflight, ofPartition, Multiset.filter_add, Multiset.filter_singleton] at hsum
    rw [hbuf]
    by_cases hp : p = cs.partitionIdx
    · rw [if_pos hp]
      refine ⟨css ++ [cs], hp ▸ hwritten.write cs, ?_⟩
      rw [if_pos hp.symm] at hsum
      rw [← hsum, ← Multiset.coe_add, Multiset.coe_singleton]
      abel
    · rw [if_neg hp]
      rw [if_neg (Ne.symm hp), Multiset.empty_eq_zero, add_zero] at hsum
      exact ⟨css, hwritten, hsum⟩
  next := h.next
  nonempty := h.nonempty

theorem Accounts.receive (h : Accounts files s cuts) {b : RoutedBatch state}
    {route : List (Message state)} (hroute : s.route = .ok b :: route)
    (hitems : mainItems s.main = 0) :
    Accounts files { s with
      route
      bufs := Function.update s.bufs b.partitionIdx { s.bufs b.partitionIdx with
        batch := (s.bufs b.partitionIdx).batch.extend b.batch }
      main := .splitting b.partitionIdx } cuts where
  rows p := by
    have hrows := h.rows p
    have hpending : pending files s p = batchRows p b + ((route.map (messageRows p)).sum +
        (s.decoders.map (decoderRows p)).sum + ((files.drop s.nextFile).map (fileRows p)).sum) := by
      rw [pending, hroute, List.map_cons, List.sum_cons, messageRows]
      abel
    rw [hpending] at hrows
    rw [← hrows]
    show (_ + _ + _) + ((Function.update s.bufs _ _ p).batch.rows : Rows) + _ = _
    rw [Function.update_apply, batchRows]
    by_cases hp : p = b.partitionIdx
    · rw [if_pos hp, if_pos hp.symm, Columns.rows_extend, ← Multiset.coe_add, hp]
      abel
    · rw [if_neg hp, if_neg (Ne.symm hp), zero_add]
  segments p := by
    obtain ⟨css, hwritten, hsum⟩ := h.segments p
    refine ⟨css, ?_, ?_⟩
    · show Written (Function.update s.bufs _ _ p) css
      rw [Function.update_apply]
      split_ifs with hp
      · rw [← hp]
        exact hwritten.setBatch _
      · exact hwritten
    · rw [← hsum, inFlight, inFlight, hitems]
      rfl
  next := h.next
  nonempty := h.nonempty

theorem Accounts.ship (h : Accounts files s cuts) {p : ℕ} {batch rest : state.Batch}
    {resume : Resume} (hcuts : Cuts s s.main p batch rest resume) :
    Accounts files (s.ship p batch rest resume)
      (Function.update cuts p (cuts p ++ [batch])) where
  rows q := by
    have hrows := h.rows q
    rw [← hrows]
    show pending files s q + ((Function.update s.bufs _ _ q).batch.rows : Rows) + _ = _
    rw [Function.update_apply, Function.update_apply]
    by_cases hq : q = p
    · rw [if_pos hq, if_pos hq, hq, List.flatMap_append, List.flatMap_singleton,
        ← hcuts.rows_eq, ← Multiset.coe_add, ← Multiset.coe_add]
      abel
    · rw [if_neg hq, if_neg hq]
  segments q := by
    obtain ⟨css, hwritten, hsum⟩ := h.segments q
    have hflight : inFlight (s.ship p batch rest resume) =
        {compressSegment ⟨batch, s.nextSegIds p, p⟩} + inFlight s := by
      rw [inFlight, inFlight, hcuts.mainItems_eq]
      show {_} + _ + _ + _ = _
      rw [zero_add, add_assoc, add_assoc, add_assoc]
      rfl
    refine ⟨css, ?_, ?_⟩
    · show Written (Function.update s.bufs _ _ q) css
      rw [Function.update_apply]
      split_ifs with hq
      · rw [← hq]
        exact hwritten.setBatch _
      · exact hwritten
    · rw [hflight, ofPartition, Multiset.filter_add, Multiset.filter_singleton,
        Function.update_apply, add_assoc, hsum]
      have hidx : (compressSegment ⟨batch, s.nextSegIds p, p⟩).partitionIdx = p := rfl
      by_cases hq : q = p
      · rw [hidx, if_pos hq.symm, if_pos hq, hq, compressedOf_concat, ← h.next p,
          ← Multiset.coe_add, Multiset.coe_singleton, add_comm]
      · rw [hidx, if_neg (Ne.symm hq), if_neg hq, Multiset.empty_eq_zero, zero_add]
  next q := by
    show Function.update s.nextSegIds p _ q = _
    rw [Function.update_apply, Function.update_apply]
    split_ifs with hq
    · rw [h.next p, wrapI32_wrapI32_add_one, List.length_append, List.length_singleton]
      rfl
    · exact h.next q
  nonempty q c hc := by
    rw [Function.update_apply] at hc
    split_ifs at hc with hq
    · rcases List.mem_append.mp hc with hc | hc
      · exact h.nonempty p c hc
      · rw [List.mem_singleton.mp hc]
        exact hcuts.pos
    · exact h.nonempty q c hc

theorem Accounts.main (h : Accounts files s cuts) (hmove : MainMove s s') :
    ∃ cuts', Accounts files s' cuts' := by
  cases hmove with
  | goto main main' hat hgoto =>
      refine ⟨cuts, h.congr (fun _ => rfl) ?_ rfl rfl⟩
      rw [inFlight, inFlight, hat, ← hgoto.mainItems_eq]
  | write cs compressed main main' hcompressed hat hwrites =>
      subst hat
      exact ⟨cuts, h.write hcompressed hwrites⟩
  | receive b route hat hroute =>
      exact ⟨cuts, h.receive hroute (by rw [hat]; rfl)⟩
  | refuse e route hat hroute =>
      refine ⟨cuts, h.congr (fun p => ?_) ?_ rfl rfl⟩
      · rw [pending, pending, hroute, List.map_cons, List.sum_cons, messageRows, zero_add]
      · rw [inFlight, inFlight, hat]
        rfl
  | ship main p batch rest resume hat hcuts =>
      subst hat
      exact ⟨_, h.ship hcuts⟩
  | push item attempt resume hat htry hroom =>
      refine ⟨cuts, h.congr (fun _ => rfl) ?_ rfl rfl⟩
      have hresume : mainItems (resume.main : Main state) = 0 := by cases resume <;> rfl
      have hitem : mainItems s.main = {compressSegment item} := by rw [hat]; rfl
      rw [inFlight, inFlight, hitem]
      dsimp only
      rw [hresume, List.map_append, List.map_singleton, ← Multiset.coe_add,
        Multiset.coe_singleton]
      abel

end DeltaX.Copy.ParquetPipeline
