import DeltaX.Copy.ParquetPipeline
/-!
# What a step of the pipeline does

Every step of a thread is one of a few moves.  Of the messages that are still to come and the
segments that are on their way, a move changes nothing, or takes one, or adds one.
-/

namespace DeltaX.Copy.ParquetPipeline

open Column DeltaX.Partition DeltaX.Partition.Streaming Routing Backfill Parquet

variable {state : BackfillState} {files : List (ParquetFile state)} {s s' : Pipeline state}

/-! ## Moves -/

/-- The steps of a decode worker. -/
inductive DecoderMove (files : List (ParquetFile state)) (s : Pipeline state) (i : ℕ) :
    Pipeline state → Prop
  | take (file : ParquetFile state) (hat : s.decoders[i]? = some .ready)
      (hfile : files[s.nextFile]? = some file) :
      DecoderMove files s i { s with
        nextFile := s.nextFile + 1
        decoders := s.decoders.set i (.sending (decodeFile file).1 (decodeFile file).2) }
  | stop (hat : s.decoders[i]? = some .ready) (hnone : files.length ≤ s.nextFile) :
      DecoderMove files s i { s with
        nextFile := s.nextFile + 1
        decoders := s.decoders.set i .finished }
  | next (hat : s.decoders[i]? = some (.sending [] (.ok ()))) :
      DecoderMove files s i { s with decoders := s.decoders.set i .ready }
  | fail (e : Text) (hat : s.decoders[i]? = some (.sending [] (.error e)))
      (hroom : s.route.length < channelBound) :
      DecoderMove files s i { s with
        route := s.route ++ [.error e]
        decoders := s.decoders.set i .finished }
  | send (b : RoutedBatch state) (batches : List (RoutedBatch state)) (result : Except Text Unit)
      (hat : s.decoders[i]? = some (.sending (b :: batches) result))
      (hroom : s.route.length < channelBound) :
      DecoderMove files s i { s with
        route := s.route ++ [.ok b]
        decoders := s.decoders.set i (.sending batches result) }

theorem decoderMove_of_step {i : ℕ} (h : s.decoderStep files i = .ok s') :
    DecoderMove files s i s' := by
  unfold Pipeline.decoderStep at h
  cases hat : s.decoders[i]? with
  | none =>
      rw [hat] at h
      cases h
  | some decoder =>
      rw [hat] at h
      cases decoder with
      | finished => cases h
      | ready =>
          dsimp only at h
          cases hfile : files[s.nextFile]? with
          | none =>
              rw [hfile] at h
              obtain rfl := Except.ok.inj h
              exact .stop hat (List.getElem?_eq_none_iff.mp hfile)
          | some file =>
              rw [hfile] at h
              obtain rfl := Except.ok.inj h
              exact .take file hat hfile
      | sending batches result =>
          cases batches with
          | nil =>
              cases result with
              | ok u =>
                  obtain rfl := Except.ok.inj h
                  exact .next hat
              | error e =>
                  dsimp only at h
                  split_ifs at h with hroom
                  obtain rfl := Except.ok.inj h
                  exact .fail e hat hroom
          | cons b batches =>
              dsimp only at h
              split_ifs at h with hroom
              obtain rfl := Except.ok.inj h
              exact .send b batches result hat hroom

/-- The steps of a compress worker. -/
inductive CompressorMove (s : Pipeline state) (i : ℕ) : Pipeline state → Prop
  | take (item : SegItem state) (segs : List (SegItem state))
      (hat : s.compressors[i]? = some .waiting) (hsegs : s.segs = item :: segs) :
      CompressorMove s i { s with segs, compressors := s.compressors.set i (.holding item) }
  | stop (hat : s.compressors[i]? = some .waiting) (hsegs : s.segs = [])
      (hclosed : s.segsClosed = true) :
      CompressorMove s i { s with compressors := s.compressors.set i .finished }
  | send (item : SegItem state) (hat : s.compressors[i]? = some (.holding item))
      (hroom : s.compressed.length < channelBound) :
      CompressorMove s i { s with
        compressed := s.compressed ++ [compressSegment item]
        compressors := s.compressors.set i .waiting }

theorem compressorMove_of_step {i : ℕ} (h : s.compressorStep i = .ok s') :
    CompressorMove s i s' := by
  unfold Pipeline.compressorStep at h
  cases hat : s.compressors[i]? with
  | none =>
      rw [hat] at h
      cases h
  | some compressor =>
      rw [hat] at h
      cases compressor with
      | finished => cases h
      | waiting =>
          cases hsegs : s.segs with
          | nil =>
              dsimp only at h
              rw [hsegs] at h
              dsimp only at h
              split_ifs at h with hclosed
              obtain rfl := Except.ok.inj h
              have hmove := CompressorMove.stop hat hsegs hclosed
              rwa [hsegs] at hmove
          | cons item segs =>
              dsimp only at h
              rw [hsegs] at h
              obtain rfl := Except.ok.inj h
              exact .take item segs hat hsegs
      | holding item =>
          dsimp only at h
          split_ifs at h with hroom
          obtain rfl := Except.ok.inj h
          exact .send item hat hroom

/-- The main thread goes on without touching anything else. -/
inductive Goto (s : Pipeline state) : Main state → Main state → Prop
  | drained (hnone : s.compressed = []) : Goto s .draining .receiving
  | timeout (hroute : s.route = []) (hdone : s.decodersDone = false) :
      Goto s .receiving .draining
  | disconnected (hroute : s.route = []) (hdone : s.decodersDone = true) :
      Goto s .receiving (.flushing 0)
  | split (p : ℕ) (hsmall : (s.bufs p).batch.numRows < state.plan.segmentSize) :
      Goto s (.splitting p) .draining
  | full (item : SegItem state) (resume : Resume) (hfull : channelBound ≤ s.segs.length) :
      Goto s (.shipping item .first resume) (.shipping item .drain resume)
  | retry (item : SegItem state) (resume : Resume) (hnone : s.compressed = []) :
      Goto s (.shipping item .drain resume) (.shipping item .second resume)
  | block (item : SegItem state) (resume : Resume) (hfull : channelBound ≤ s.segs.length) :
      Goto s (.shipping item .second resume) (.shipping item .blocked resume)
  | skip (p : ℕ) (hlt : p < state.ranges.bounds.length) (hnone : (s.bufs p).batch.numRows = 0) :
      Goto s (.flushing p) (.flushing (p + 1))
  | flushed (p : ℕ) (hge : state.ranges.bounds.length ≤ p) : Goto s (.flushing p) .collecting
  | collected (hnone : s.compressed = []) (hdone : s.compressorsDone = true) :
      Goto s .collecting .joined

/-- The main thread writes a segment. -/
inductive Writes : Main state → Main state → Prop
  | draining : Writes .draining .draining
  | drain (item : SegItem state) (resume : Resume) :
      Writes (.shipping item .drain resume) (.shipping item .drain resume)
  | blocked (item : SegItem state) (resume : Resume) :
      Writes (.shipping item .blocked resume) (.shipping item .first resume)
  | collecting : Writes .collecting .collecting

/-- The main thread cuts a segment off: `batch` leaves the buffer, `rest` stays. -/
inductive Cuts (s : Pipeline state) : Main state → ℕ → state.Batch → state.Batch → Resume → Prop
  | split (p : ℕ) (hfull : state.plan.segmentSize ≤ (s.bufs p).batch.numRows) :
      Cuts s (.splitting p) p
        ((s.bufs p).batch.keep ⟨state.plan.segmentSize, Nat.lt_succ_of_le hfull⟩)
        ((s.bufs p).batch.splitOff ⟨state.plan.segmentSize, Nat.lt_succ_of_le hfull⟩) (.split p)
  | flush (p : ℕ) (hlt : p < state.ranges.bounds.length) (hpos : 0 < (s.bufs p).batch.numRows) :
      Cuts s (.flushing p) p (s.bufs p).batch (.empty state.kinds) (.flush (p + 1))

/-- The steps of the main thread. -/
inductive MainMove (s : Pipeline state) : Pipeline state → Prop
  | goto (main main' : Main state) (hat : s.main = main) (hgoto : Goto s main main') :
      MainMove s { s with main := main' }
  | write (cs : CompressedSegment) (compressed : List CompressedSegment) (main main' : Main state)
      (hcompressed : s.compressed = cs :: compressed) (hat : s.main = main)
      (hwrites : Writes main main') :
      MainMove s { s with
        compressed
        bufs := Function.update s.bufs cs.partitionIdx
          ((s.bufs cs.partitionIdx).writeCompressedSegment cs)
        main := main' }
  | receive (b : RoutedBatch state) (route : List (Message state)) (hat : s.main = .receiving)
      (hroute : s.route = .ok b :: route) :
      MainMove s { s with
        route
        bufs := Function.update s.bufs b.partitionIdx { s.bufs b.partitionIdx with
          batch := (s.bufs b.partitionIdx).batch.extend b.batch }
        main := .splitting b.partitionIdx }
  | refuse (e : Text) (route : List (Message state)) (hat : s.main = .receiving)
      (hroute : s.route = .error e :: route) :
      MainMove s { s with route, main := .failed e }
  | ship (main : Main state) (p : ℕ) (batch rest : state.Batch) (resume : Resume)
      (hat : s.main = main) (hcuts : Cuts s main p batch rest resume) :
      MainMove s (s.ship p batch rest resume)
  | push (item : SegItem state) (attempt : Attempt) (resume : Resume)
      (hat : s.main = .shipping item attempt resume)
      (htry : attempt = .first ∨ attempt = .second) (hroom : s.segs.length < channelBound) :
      MainMove s { s with segs := s.segs ++ [item], main := resume.main }

theorem writeNext_eq_none (h : s.writeNext = none) : s.compressed = [] := by
  unfold Pipeline.writeNext at h
  cases hcompressed : s.compressed with
  | nil => rfl
  | cons cs compressed =>
      rw [hcompressed] at h
      cases h

theorem writeNext_eq_some {s'' : Pipeline state} (h : s.writeNext = some s'') :
    ∃ cs compressed, s.compressed = cs :: compressed ∧ s'' = { s with
      compressed
      bufs := Function.update s.bufs cs.partitionIdx
        ((s.bufs cs.partitionIdx).writeCompressedSegment cs) } := by
  unfold Pipeline.writeNext at h
  cases hcompressed : s.compressed with
  | nil =>
      rw [hcompressed] at h
      cases h
  | cons cs compressed =>
      rw [hcompressed] at h
      exact ⟨cs, compressed, rfl, (Option.some.inj h).symm⟩

/-- The next result is written, or there is none and the thread goes on. -/
theorem move_writeNext_getD {main main' : Main state} (hat : s.main = main)
    (hwrites : Writes main main) (hgoto : s.compressed = [] → Goto s main main') :
    MainMove s (s.writeNext.getD { s with main := main' }) := by
  cases hnext : s.writeNext with
  | none => exact .goto main main' hat (hgoto (writeNext_eq_none hnext))
  | some s'' =>
      obtain ⟨cs, compressed, hcompressed, rfl⟩ := writeNext_eq_some hnext
      have hmove := MainMove.write cs compressed main main hcompressed hat hwrites
      rwa [← hat] at hmove

theorem move_trySend {item : SegItem state} {attempt full : Attempt} {resume : Resume}
    (hat : s.main = .shipping item attempt resume) (htry : attempt = .first ∨ attempt = .second)
    (hgoto : channelBound ≤ s.segs.length →
      Goto s (.shipping item attempt resume) (.shipping item full resume)) :
    MainMove s (s.trySend item resume full) := by
  rw [Pipeline.trySend]
  split_ifs with hroom
  · exact .push item attempt resume hat htry hroom
  · exact .goto _ _ hat (hgoto (not_lt.mp hroom))

theorem mainMove_of_step (h : s.mainStep = .ok s') : MainMove s s' := by
  unfold Pipeline.mainStep at h
  cases hat : s.main with
  | draining =>
      rw [hat] at h
      obtain rfl := Except.ok.inj h
      exact move_writeNext_getD hat .draining .drained
  | receiving =>
      rw [hat] at h
      dsimp only at h
      cases hroute : s.route with
      | nil =>
          rw [hroute] at h
          dsimp only at h
          split_ifs at h with hdone
          · obtain rfl := Except.ok.inj h
            have hmove := MainMove.goto _ _ hat (.disconnected hroute hdone)
            rwa [hroute] at hmove
          · obtain rfl := Except.ok.inj h
            have hmove := MainMove.goto _ _ hat (.timeout hroute (Bool.eq_false_iff.mpr hdone))
            rwa [hroute] at hmove
      | cons message route =>
          rw [hroute] at h
          cases message with
          | ok b =>
              obtain rfl := Except.ok.inj h
              exact .receive b route hat hroute
          | error e =>
              obtain rfl := Except.ok.inj h
              exact .refuse e route hat hroute
  | splitting p =>
      rw [hat] at h
      dsimp only at h
      split_ifs at h with hfull
      · obtain rfl := Except.ok.inj h
        exact .ship _ p _ _ _ hat (.split p hfull)
      · obtain rfl := Except.ok.inj h
        exact .goto _ _ hat (.split p (not_le.mp hfull))
  | shipping item attempt resume =>
      rw [hat] at h
      cases attempt with
      | first =>
          obtain rfl := Except.ok.inj h
          exact move_trySend hat (.inl rfl) (.full item resume)
      | drain =>
          obtain rfl := Except.ok.inj h
          exact move_writeNext_getD hat (.drain item resume) (.retry item resume)
      | second =>
          obtain rfl := Except.ok.inj h
          exact move_trySend hat (.inr rfl) (.block item resume)
      | blocked =>
          dsimp only at h
          cases hnext : s.writeNext with
          | none =>
              rw [hnext] at h
              cases h
          | some s'' =>
              rw [hnext] at h
              obtain rfl := Except.ok.inj h
              obtain ⟨cs, compressed, hcompressed, rfl⟩ := writeNext_eq_some hnext
              exact .write cs compressed _ _ hcompressed hat (.blocked item resume)
  | flushing p =>
      rw [hat] at h
      dsimp only at h
      split_ifs at h with hlt hpos
      · obtain rfl := Except.ok.inj h
        exact .ship _ p _ _ _ hat (.flush p hlt hpos)
      · obtain rfl := Except.ok.inj h
        exact .goto _ _ hat (.skip p hlt (Nat.eq_zero_of_not_pos hpos))
      · obtain rfl := Except.ok.inj h
        exact .goto _ _ hat (.flushed p (not_lt.mp hlt))
  | collecting =>
      rw [hat] at h
      dsimp only at h
      cases hnext : s.writeNext with
      | none =>
          rw [hnext] at h
          dsimp only at h
          split_ifs at h with hdone
          obtain rfl := Except.ok.inj h
          exact .goto _ _ hat (.collected (writeNext_eq_none hnext) hdone)
      | some s'' =>
          rw [hnext] at h
          obtain rfl := Except.ok.inj h
          obtain ⟨cs, compressed, hcompressed, rfl⟩ := writeNext_eq_some hnext
          have hmove := MainMove.write cs compressed _ _ hcompressed hat .collecting
          rwa [← hat] at hmove
  | joined =>
      rw [hat] at h
      cases h
  | failed e =>
      rw [hat] at h
      cases h

end DeltaX.Copy.ParquetPipeline
