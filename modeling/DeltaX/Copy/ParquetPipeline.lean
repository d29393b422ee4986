import DeltaX.Copy.Parquet
/-!
# The pipeline that loads parquet files

Decode workers read files and send batches of routed rows.  The main thread collects them in
the buffers of the partitions, cuts segments off and sends these to compress workers, whose
results it writes.  All channels are bounded.  A step of the pipeline is a step of one thread
between two operations on a channel.
-/

namespace DeltaX.Copy.ParquetPipeline

open Column DeltaX.Partition DeltaX.Partition.Streaming Support.Wrapping Routing Backfill Parquet

variable {state : BackfillState}

/-! ## Decoding a file -/

/-- What a decode worker sends. -/
abbrev Message (state : BackfillState) : Type := Except Text (RoutedBatch state)

/-- `decode_and_route_parquet_file`: the batches that are sent, and how the file ends. -/
def decodeFile : ParquetFile state → List (RoutedBatch state) × Except Text Unit
  | [] => ([], .ok ())
  | .error e :: _ => ([], .error e)
  | .ok batch :: rowGroups =>
      if batch.numRows = 0 then decodeFile rowGroups
      else
        match decodeAndRoute batch with
        | .error e => ([], .error e)
        | .ok sent =>
            let rest := decodeFile rowGroups
            (sent ++ rest.1, rest.2)

/-! ## Threads -/

/-- A decode worker: it takes a file, sends what it finds, or has ended. -/
inductive Decoder (state : BackfillState)
  | ready
  | sending (batches : List (RoutedBatch state)) (result : Except Text Unit)
  | finished

/-- A compress worker: it waits for a segment, has one to send, or has ended. -/
inductive Compressor (state : BackfillState)
  | waiting
  | holding (item : SegItem state)
  | finished

/-- Where `send_to_compress` is: before the first `try_send`, in `drain_compressed`, before the
second `try_send`, in the blocking `recv`. -/
inductive Attempt
  | first
  | drain
  | second
  | blocked
deriving DecidableEq, Repr

/-- What the main thread goes on with when a segment is sent. -/
inductive Resume
  | split (partIdx : ℕ)
  | flush (partIdx : ℕ)
deriving DecidableEq, Repr

/-- The main thread. -/
inductive Main (state : BackfillState)
  | draining
  | receiving
  | splitting (partIdx : ℕ)
  | shipping (item : SegItem state) (attempt : Attempt) (resume : Resume)
  | flushing (partIdx : ℕ)
  | collecting
  | joined
  | failed (e : Text)

def Resume.main : Resume → Main state
  | .split partIdx => .splitting partIdx
  | .flush partIdx => .flushing partIdx

/-- `sync_channel(4)`. -/
def channelBound : ℕ := 4

/-- `handle_copy_from_parquet_parallel` while it runs. -/
structure Pipeline (state : BackfillState) where
  nextFile : ℕ
  decoders : List (Decoder state)
  route : List (Message state)
  main : Main state
  segs : List (SegItem state)
  compressors : List (Compressor state)
  compressed : List CompressedSegment
  nextSegIds : ℕ → ℤ
  bufs : Buffers state

/-- Up to four workers decode. -/
def nDecode (totalWorkers nFiles : ℕ) : ℕ := min (min totalWorkers nFiles) 4

/-- The others compress. -/
def nCompress (totalWorkers nFiles : ℕ) : ℕ := max (totalWorkers - nDecode totalWorkers nFiles) 1

/-- The pipeline when all workers are spawned. -/
def spawn (totalWorkers : ℕ) (files : List (ParquetFile state)) : Pipeline state where
  nextFile := 0
  decoders := .replicate (nDecode totalWorkers files.length) .ready
  route := []
  main := .draining
  segs := []
  compressors := .replicate (nCompress totalWorkers files.length) .waiting
  compressed := []
  nextSegIds _ := 1
  bufs _ := .new state

/-! ## Steps -/

/-- The thread that takes the next step. -/
inductive Turn
  | decoder (i : ℕ)
  | compressor (i : ℕ)
  | main
deriving DecidableEq, Repr

/-- Why a thread takes no step. -/
inductive Stopped
  | full
  | empty
  | done
deriving DecidableEq, Repr

namespace Pipeline

variable (s : Pipeline state)

/-- A decode worker. -/
def decoderStep (files : List (ParquetFile state)) (i : ℕ) : Except Stopped (Pipeline state) :=
  match s.decoders[i]? with
  | none | some .finished => .error .done
  | some .ready =>
      let decoder :=
        match files[s.nextFile]? with
        | some file => .sending (decodeFile file).1 (decodeFile file).2
        | none => .finished
      .ok { s with nextFile := s.nextFile + 1, decoders := s.decoders.set i decoder }
  | some (.sending [] (.ok _)) => .ok { s with decoders := s.decoders.set i .ready }
  | some (.sending [] (.error e)) =>
      if s.route.length < channelBound then
        .ok { s with route := s.route ++ [.error e], decoders := s.decoders.set i .finished }
      else .error .full
  | some (.sending (b :: batches) result) =>
      if s.route.length < channelBound then
        .ok { s with
          route := s.route ++ [.ok b]
          decoders := s.decoders.set i (.sending batches result) }
      else .error .full

/-- The sender of the segments is dropped. -/
def segsClosed : Bool :=
  match s.main with
  | .collecting | .joined | .failed _ => true
  | _ => false

/-- A compress worker. -/
def compressorStep (i : ℕ) : Except Stopped (Pipeline state) :=
  match s.compressors[i]? with
  | none | some .finished => .error .done
  | some .waiting =>
      match s.segs with
      | item :: segs => .ok { s with segs, compressors := s.compressors.set i (.holding item) }
      | [] =>
          if s.segsClosed then .ok { s with compressors := s.compressors.set i .finished }
          else .error .empty
  | some (.holding item) =>
      if s.compressed.length < channelBound then
        .ok { s with
          compressed := s.compressed ++ [compressSegment item]
          compressors := s.compressors.set i .waiting }
      else .error .full

/-- `write_compressed_segment` on the next result. -/
def writeNext : Option (Pipeline state) :=
  match s.compressed with
  | [] => none
  | cs :: compressed =>
      some { s with
        compressed
        bufs := Function.update s.bufs cs.partitionIdx
          ((s.bufs cs.partitionIdx).writeCompressedSegment cs) }

/-- A segment is given its id and is to be sent; `rest` stays in the buffer. -/
def ship (partIdx : ℕ) (batch rest : state.Batch) (resume : Resume) : Pipeline state :=
  { s with
    main := .shipping ⟨batch, s.nextSegIds partIdx, partIdx⟩ .first resume
    nextSegIds := Function.update s.nextSegIds partIdx (wrapI32 (s.nextSegIds partIdx + 1))
    bufs := Function.update s.bufs partIdx { s.bufs partIdx with batch := rest } }

def decodersDone : Bool := s.decoders.all fun d => match d with
  | .finished => true
  | _ => false

def compressorsDone : Bool := s.compressors.all fun c => match c with
  | .finished => true
  | _ => false

/-- `try_send` of a segment. -/
def trySend (item : SegItem state) (resume : Resume) (full : Attempt) : Pipeline state :=
  if s.segs.length < channelBound then { s with segs := s.segs ++ [item], main := resume.main }
  else { s with main := .shipping item full resume }

/-- The main thread. -/
def mainStep : Except Stopped (Pipeline state) :=
  match s.main with
  | .draining => .ok (s.writeNext.getD { s with main := .receiving })
  | .receiving =>
      match s.route with
      | .ok b :: route =>
          let buf := s.bufs b.partitionIdx
          .ok { s with
            route
            bufs := Function.update s.bufs b.partitionIdx
              { buf with batch := buf.batch.extend b.batch }
            main := .splitting b.partitionIdx }
      | .error e :: route => .ok { s with route, main := .failed e }
      | [] =>
          if s.decodersDone then .ok { s with main := .flushing 0 }
          -- the timeout
          else .ok { s with main := .draining }
  | .splitting partIdx =>
      let batch := (s.bufs partIdx).batch
      if h : state.plan.segmentSize ≤ batch.numRows then
        let segSize : Fin (batch.numRows + 1) := ⟨state.plan.segmentSize, Nat.lt_succ_of_le h⟩
        .ok (s.ship partIdx (batch.keep segSize) (batch.splitOff segSize) (.split partIdx))
      else .ok { s with main := .draining }
  | .shipping item .first resume => .ok (s.trySend item resume .drain)
  | .shipping item .drain resume =>
      .ok (s.writeNext.getD { s with main := .shipping item .second resume })
  | .shipping item .second resume => .ok (s.trySend item resume .blocked)
  | .shipping item .blocked resume =>
      match s.writeNext with
      | some s => .ok { s with main := .shipping item .first resume }
      | none => .error .empty
  | .flushing partIdx =>
      if partIdx < state.ranges.bounds.length then
        let batch := (s.bufs partIdx).batch
        if 0 < batch.numRows then
          .ok (s.ship partIdx batch (.empty state.kinds) (.flush (partIdx + 1)))
        else .ok { s with main := .flushing (partIdx + 1) }
      else .ok { s with main := .collecting }
  | .collecting =>
      match s.writeNext with
      | some s => .ok s
      | none => if s.compressorsDone then .ok { s with main := .joined } else .error .empty
  | .joined | .failed _ => .error .done

/-- The step of a thread. -/
def step (files : List (ParquetFile state)) (s : Pipeline state) :
    Turn → Except Stopped (Pipeline state)
  | .decoder i => s.decoderStep files i
  | .compressor i => s.compressorStep i
  | .main => s.mainStep

end Pipeline

end DeltaX.Copy.ParquetPipeline
