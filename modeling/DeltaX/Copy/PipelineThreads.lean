import DeltaX.Copy.PipelineAccounts
/-!
# Where the threads are

As long as the files decode no thread fails, and the main thread only goes on when the workers
it waits for have ended.  It blocks on a segment only while others are with the compress
workers, so some thread can always take a step.
-/

namespace DeltaX.Copy.ParquetPipeline

open Column DeltaX.Partition DeltaX.Partition.Streaming Routing Backfill Parquet

variable {state : BackfillState} {files : List (ParquetFile state)} {s s' : Pipeline state}

/-! ## Workers that have ended -/

theorem decodersDone_iff : s.decodersDone = true ↔ ∀ d ∈ s.decoders, d = .finished := by
  rw [Pipeline.decodersDone, List.all_eq_true]
  apply forall₂_congr
  intro d _
  cases d <;> simp

theorem compressorsDone_iff :
    s.compressorsDone = true ↔ ∀ c ∈ s.compressors, c = .finished := by
  rw [Pipeline.compressorsDone, List.all_eq_true]
  apply forall₂_congr
  intro c _
  cases c <;> simp

theorem DecoderMove.decodersDone_eq {i : ℕ} (h : DecoderMove files s i s') :
    s.decodersDone = false := by
  rw [Bool.eq_false_iff]
  intro hdone
  have hall := decodersDone_iff.mp hdone
  cases h with
  | take file hat hfile => cases hall _ (List.mem_of_getElem? hat)
  | stop hat hnone => cases hall _ (List.mem_of_getElem? hat)
  | next hat => cases hall _ (List.mem_of_getElem? hat)
  | fail e hat hroom => cases hall _ (List.mem_of_getElem? hat)
  | send b batches result hat hroom => cases hall _ (List.mem_of_getElem? hat)

theorem CompressorMove.compressorsDone_eq {i : ℕ} (h : CompressorMove s i s') :
    s.compressorsDone = false := by
  rw [Bool.eq_false_iff]
  intro hdone
  have hall := compressorsDone_iff.mp hdone
  cases h with
  | take item segs hat hsegs => cases hall _ (List.mem_of_getElem? hat)
  | stop hat hsegs hclosed => cases hall _ (List.mem_of_getElem? hat)
  | send item hat hroom => cases hall _ (List.mem_of_getElem? hat)

theorem set_ne_nil {α : Type*} {pool : List α} (h : pool ≠ []) (i : ℕ) (a : α) :
    pool.set i a ≠ [] := by
  rwa [Ne, List.set_eq_nil_iff]

/-! ## The invariant -/

/-- The decode workers have ended, and the buffers of the first `q` partitions are empty. -/
structure Drained (s : Pipeline state) (q : ℕ) : Prop where
  decoders : s.decodersDone = true
  route : s.route = []
  bufs : ∀ p < q, (s.bufs p).batch.numRows = 0

/-- What has happened when the main thread is here. -/
def Phase (s : Pipeline state) : Main state → Prop
  | .flushing q | .shipping _ _ (.flush q) => Drained s q
  | .collecting => Drained s state.ranges.bounds.length
  | .joined =>
      Drained s state.ranges.bounds.length ∧ s.compressorsDone = true ∧ s.compressed = []
  | .failed _ => False
  | _ => True

/-- No decode worker meets an error. -/
structure Decodes (files : List (ParquetFile state)) (s : Pipeline state) : Prop where
  taken : (∀ d ∈ s.decoders, d = .finished) → files.length ≤ s.nextFile
  sending : ∀ batches e, .sending batches (.error e) ∉ s.decoders
  route : ∀ e, .error e ∉ s.route

/-- A compress worker ends after the last segment. -/
structure Compresses (s : Pipeline state) : Prop where
  nonempty : s.compressors ≠ []
  closed : .finished ∈ s.compressors → s.segsClosed = true ∧ s.segs = []

structure Threads (files : List (ParquetFile state)) (s : Pipeline state) : Prop where
  decodes : Decodes files s
  compresses : Compresses s
  phase : Phase s s.main
  blocked : ∀ item resume, s.main = .shipping item .blocked resume → 1 < (inFlight s).card

theorem Drained.congr {q : ℕ} (h : Drained s q) (hdecoders : s'.decoders = s.decoders)
    (hroute : s'.route = s.route)
    (hbufs : ∀ p, (s'.bufs p).batch.numRows = (s.bufs p).batch.numRows) : Drained s' q where
  decoders := by
    have hdone := h.decoders
    rw [Pipeline.decodersDone] at hdone ⊢
    rwa [hdecoders]
  route := hroute.trans h.route
  bufs p hp := (hbufs p).trans (h.bufs p hp)

/-- Nothing that the main thread waits for has changed. -/
theorem Phase.congr {main : Main state} (h : Phase s main)
    (hdrained : ∀ q, Drained s q → Drained s' q)
    (hjoined : ∀ q, Drained s q → main = .joined → s.compressorsDone = true →
      s.compressed = [] → s'.compressorsDone = true ∧ s'.compressed = []) : Phase s' main := by
  cases main with
  | shipping item attempt resume =>
      cases resume with
      | split p => trivial
      | flush q => exact hdrained q h
  | flushing q => exact hdrained q h
  | collecting => exact hdrained _ h
  | joined => exact ⟨hdrained _ h.1, hjoined _ h.1 rfl h.2.1 h.2.2⟩
  | failed e => exact h.elim
  | _ => trivial

/-- The main thread has not got past the decode workers, or they have ended. -/
theorem Phase.of_decoding {main : Main state} (h : Phase s main)
    (hdone : s.decodersDone = false) : Phase s' main := by
  have hnot : ∀ q, ¬ Drained s q := by
    intro q hdrained
    rw [hdrained.decoders] at hdone
    cases hdone
  exact h.congr (fun q hdrained => absurd hdrained (hnot q))
    fun q hdrained => absurd hdrained (hnot q)

/-- What has happened does not depend on how often a segment was refused. -/
theorem Phase.attempt {item : SegItem state} {attempt : Attempt} {resume : Resume}
    (h : Phase s (.shipping item attempt resume)) (attempt' : Attempt) :
    Phase s (.shipping item attempt' resume) := by
  cases resume <;> exact h

/-! ## Steps of the workers -/

/-- The decode workers and the files that are left stay as they are. -/
theorem Decodes.congr (h : Decodes files s) (hnext : s'.nextFile = s.nextFile)
    (hdecoders : s'.decoders = s.decoders) (hroute : ∀ e, .error e ∈ s'.route → .error e ∈ s.route) :
    Decodes files s' where
  taken hall := by
    rw [hnext]
    exact h.taken (hdecoders ▸ hall)
  sending batches e := by
    rw [hdecoders]
    exact h.sending batches e
  route e he := h.route e (hroute e he)

theorem Decodes.decoder (h : Decodes files s) (hok : ∀ file ∈ files, (decodeFile file).2 = .ok ())
    {i : ℕ} (hmove : DecoderMove files s i s') : Decodes files s' := by
  -- a worker that goes on has not ended
  have hgoing : ∀ {d : Decoder state}, (∃ d', s.decoders[i]? = some d') → d ≠ .finished →
      ¬ ∀ d' ∈ s.decoders.set i d, d' = .finished := by
    rintro d ⟨d', hat⟩ hne hall
    obtain ⟨hlt, -⟩ := List.getElem?_eq_some_iff.mp hat
    exact hne (hall d (List.mem_set hlt d))
  have hset : ∀ {d : Decoder state}, (∀ batches e, d ≠ .sending batches (.error e)) →
      ∀ batches e, .sending batches (.error e) ∉ s.decoders.set i d := by
    intro d hd batches e hmem
    rcases List.mem_or_eq_of_mem_set hmem with hmem | heq
    · exact h.sending batches e hmem
    · exact hd batches e heq.symm
  cases hmove with
  | take file hat hfile =>
      have hfileok := hok file (List.mem_of_getElem? hfile)
      refine ⟨fun hall => absurd hall (hgoing ⟨_, hat⟩ (by simp)), hset ?_, h.route⟩
      rintro batches e heq
      rw [hfileok] at heq
      cases heq
  | stop hat hnone =>
      exact ⟨fun _ => hnone.trans (Nat.le_succ _), hset (by simp), h.route⟩
  | next hat =>
      exact ⟨fun hall => absurd hall (hgoing ⟨_, hat⟩ (by simp)), hset (by simp), h.route⟩
  | fail e hat hroom => exact absurd (List.mem_of_getElem? hat) (h.sending [] e)
  | send b batches result hat hroom =>
      refine ⟨fun hall => absurd hall (hgoing ⟨_, hat⟩ (by simp)), hset ?_, fun e he => ?_⟩
      · rintro batches' e heq
        obtain ⟨-, rfl⟩ := Decoder.sending.inj heq
        exact h.sending _ e (List.mem_of_getElem? hat)
      · rcases List.mem_append.mp he with he | he
        · exact h.route e he
        · cases List.mem_singleton.mp he

theorem Compresses.congr (h : Compresses s) (hcompressors : s'.compressors = s.compressors)
    (hclosed : s.segsClosed = true → s.segs = [] → s'.segsClosed = true ∧ s'.segs = []) :
    Compresses s' where
  nonempty := by
    rw [hcompressors]
    exact h.nonempty
  closed hmem := by
    rw [hcompressors] at hmem
    obtain ⟨hsegsClosed, hsegs⟩ := h.closed hmem
    exact hclosed hsegsClosed hsegs

theorem Compresses.compressor (h : Compresses s) {i : ℕ} (hmove : CompressorMove s i s') :
    Compresses s' := by
  cases hmove with
  | take item segs hat hsegs =>
      refine ⟨set_ne_nil h.nonempty _ _, fun hmem => ?_⟩
      rcases List.mem_or_eq_of_mem_set hmem with hmem | heq
      · obtain ⟨-, hnil⟩ := h.closed hmem
        rw [hsegs] at hnil
        cases hnil
      · cases heq
  | stop hat hsegs hclosed => exact ⟨set_ne_nil h.nonempty _ _, fun _ => ⟨hclosed, hsegs⟩⟩
  | send item hat hroom =>
      refine ⟨set_ne_nil h.nonempty _ _, fun hmem => ?_⟩
      rcases List.mem_or_eq_of_mem_set hmem with hmem | heq
      · exact h.closed hmem
      · cases heq

theorem Threads.decoder (h : Threads files s)
    (hok : ∀ file ∈ files, (decodeFile file).2 = .ok ()) {i : ℕ}
    (hmove : DecoderMove files s i s') : Threads files s' := by
  have hphase : Phase s' s.main := h.phase.of_decoding hmove.decodersDone_eq
  have hdecodes := h.decodes.decoder hok hmove
  cases hmove <;>
    exact ⟨hdecodes, h.compresses.congr rfl fun hclosed hsegs => ⟨hclosed, hsegs⟩, hphase,
      h.blocked⟩

theorem Threads.compressor (h : Threads files s) {i : ℕ} (hmove : CompressorMove s i s') :
    Threads files s' := by
  have hgoing := hmove.compressorsDone_eq
  have hflight := hmove.inFlight_eq
  have hcompresses := h.compresses.compressor hmove
  have hphase : (∀ q, Drained s q → Drained s' q) → Phase s' s.main := by
    intro hdrained
    refine h.phase.congr hdrained fun _ _ _ hdone => ?_
    rw [hdone] at hgoing
    cases hgoing
  cases hmove <;>
    exact ⟨h.decodes.congr rfl rfl fun _ => id, hcompresses,
      hphase fun q hdrained => hdrained.congr rfl rfl fun _ => rfl,
      fun item resume hmain => hflight ▸ h.blocked item resume hmain⟩

/-! ## Steps of the main thread -/

theorem Threads.goto (h : Threads files s) {main main' : Main state} (hat : s.main = main)
    (hgoto : Goto s main main') : Threads files { s with main := main' } where
  decodes := h.decodes.congr rfl rfl fun _ => id
  compresses := by
    refine h.compresses.congr rfl fun hclosed hsegs => ⟨?_, hsegs⟩
    rw [Pipeline.segsClosed, hat] at hclosed
    rw [Pipeline.segsClosed]
    cases hgoto with
    | collected hnone hdone => rfl
    | flushed p hge => rfl
    | _ => cases hclosed
  phase := by
    have hphase := h.phase
    rw [hat] at hphase
    have hdrained : ∀ q, Drained s q → Drained { s with main := main' } q :=
      fun q hq => hq.congr rfl rfl fun _ => rfl
    cases hgoto with
    | drained hnone => trivial
    | timeout hroute hdone => trivial
    | disconnected hroute hdone =>
        exact ⟨hdone, hroute, fun p hp => absurd hp (Nat.not_lt_zero p)⟩
    | split p hsmall => trivial
    | full item resume hfull => exact (hphase.attempt _).congr hdrained (by simp)
    | retry item resume hnone => exact (hphase.attempt _).congr hdrained (by simp)
    | block item resume hfull => exact (hphase.attempt _).congr hdrained (by simp)
    | skip p hlt hnone =>
        obtain ⟨hdone, hroute, hbufs⟩ := hdrained p hphase
        refine ⟨hdone, hroute, fun p' hp' => ?_⟩
        rcases Nat.lt_succ_iff_lt_or_eq.mp hp' with hp' | rfl
        · exact hbufs p' hp'
        · exact hnone
    | flushed p hge =>
        obtain ⟨hdone, hroute, hbufs⟩ := hdrained p hphase
        exact ⟨hdone, hroute, fun p' hp' => hbufs p' (hp'.trans_le hge)⟩
    | collected hnone hdone => exact ⟨hdrained _ hphase, hdone, hnone⟩
  blocked item resume hmain := by
    obtain rfl : main' = .shipping item .blocked resume := hmain
    cases hgoto with
    | block _ _ hfull =>
        -- the channel is full
        rw [inFlight, mainItems, Multiset.card_add, Multiset.card_add, Multiset.card_add,
          Multiset.card_singleton, Multiset.coe_card, List.length_map]
        rw [channelBound] at hfull
        dsimp only
        omega

theorem Threads.write (h : Threads files s) {cs : CompressedSegment}
    {compressed : List CompressedSegment} {main main' : Main state} (hat : s.main = main)
    (hwrites : Writes main main') :
    Threads files { s with
      compressed
      bufs := Function.update s.bufs cs.partitionIdx
        ((s.bufs cs.partitionIdx).writeCompressedSegment cs)
      main := main' } where
  decodes := h.decodes.congr rfl rfl fun _ => id
  compresses := by
    refine h.compresses.congr rfl fun hclosed hsegs => ⟨?_, hsegs⟩
    rw [Pipeline.segsClosed, hat] at hclosed
    rw [Pipeline.segsClosed]
    cases hwrites with
    | collecting => rfl
    | _ => cases hclosed
  phase := by
    have hphase := h.phase
    rw [hat] at hphase
    generalize hs' : { s with
      compressed
      bufs := Function.update s.bufs cs.partitionIdx
        ((s.bufs cs.partitionIdx).writeCompressedSegment cs)
      main := main' } = s'
    have hdrained : ∀ q, Drained s q → Drained s' q := by
      subst hs'
      refine fun q hq => hq.congr rfl rfl fun p => ?_
      dsimp only
      rw [Function.update_apply]
      split_ifs with hp
      · rw [batch_writeCompressedSegment, hp]
      · rfl
    have hmain : s'.main = main' := by rw [← hs']
    rw [hmain]
    cases hwrites with
    | draining => trivial
    | drain item resume => exact hphase.congr hdrained (by simp)
    | blocked item resume => exact (hphase.attempt _).congr hdrained (by simp)
    | collecting => exact hphase.congr hdrained (by simp)
  blocked item resume hmain := by
    obtain rfl : main' = .shipping item .blocked resume := hmain
    cases hwrites

theorem Threads.receive (h : Threads files s) {b : RoutedBatch state}
    {route : List (Message state)} (hat : s.main = .receiving) (hroute : s.route = .ok b :: route) :
    Threads files { s with
      route
      bufs := Function.update s.bufs b.partitionIdx { s.bufs b.partitionIdx with
        batch := (s.bufs b.partitionIdx).batch.extend b.batch }
      main := .splitting b.partitionIdx } where
  decodes := by
    refine h.decodes.congr rfl rfl fun e he => ?_
    rw [hroute]
    exact List.mem_cons_of_mem _ he
  compresses := by
    refine h.compresses.congr rfl fun hclosed => ?_
    rw [Pipeline.segsClosed, hat] at hclosed
    cases hclosed
  phase := trivial
  blocked item resume hmain := by cases hmain

theorem Threads.ship (h : Threads files s) {main : Main state} {p : ℕ} {batch rest : state.Batch}
    {resume : Resume} (hat : s.main = main) (hcuts : Cuts s main p batch rest resume) :
    Threads files (s.ship p batch rest resume) where
  decodes := h.decodes.congr rfl rfl fun _ => id
  compresses := by
    refine h.compresses.congr rfl fun hclosed => ?_
    rw [Pipeline.segsClosed, hat] at hclosed
    cases hcuts <;> cases hclosed
  phase := by
    have hphase := h.phase
    rw [hat] at hphase
    cases hcuts with
    | split p hfull => trivial
    | flush p hlt hpos =>
        obtain ⟨hdone, hroute, hbufs⟩ : Drained s p := hphase
        refine ⟨hdone, hroute, fun p' hp' => ?_⟩
        show (Function.update s.bufs p _ p').batch.numRows = 0
        rw [Function.update_apply]
        split_ifs with heq
        · rfl
        · exact hbufs p' (by omega)
  blocked item resume' hmain := by cases hmain

theorem Threads.push (h : Threads files s) {item : SegItem state} {attempt : Attempt}
    {resume : Resume} (hat : s.main = .shipping item attempt resume) :
    Threads files { s with segs := s.segs ++ [item], main := resume.main } where
  decodes := h.decodes.congr rfl rfl fun _ => id
  compresses := by
    refine h.compresses.congr rfl fun hclosed => ?_
    rw [Pipeline.segsClosed, hat] at hclosed
    cases hclosed
  phase := by
    have hphase := h.phase
    rw [hat] at hphase
    cases resume with
    | split p => trivial
    | flush q => exact Drained.congr hphase rfl rfl fun _ => rfl
  blocked item' resume' hmain := by cases resume <;> cases hmain

theorem Threads.main (h : Threads files s) (hmove : MainMove s s') : Threads files s' := by
  cases hmove with
  | goto main main' hat hgoto => exact h.goto hat hgoto
  | write cs compressed main main' hcompressed hat hwrites => exact h.write hat hwrites
  | receive b route hat hroute => exact h.receive hat hroute
  | refuse e route hat hroute =>
      exact absurd (hroute ▸ List.mem_cons_self) (h.decodes.route e)
  | ship main p batch rest resume hat hcuts => exact h.ship hat hcuts
  | push item attempt resume hat htry hroom => exact h.push hat

/-! ## Progress -/

/-- With room for its result, a compress worker takes a step unless it waits for a segment. -/
theorem compressorStep_ok {c : Compressor state} (hmem : c ∈ s.compressors) (hne : c ≠ .finished)
    (hroom : s.compressed = []) (hwaits : c = .waiting → s.segs ≠ [] ∨ s.segsClosed = true) :
    ∃ i s', s.compressorStep i = .ok s' := by
  obtain ⟨i, hat⟩ := List.mem_iff_getElem?.mp hmem
  refine ⟨i, ?_⟩
  unfold Pipeline.compressorStep
  rw [hat]
  cases c with
  | finished => exact absurd rfl hne
  | holding item =>
      dsimp only
      rw [if_pos (by rw [hroom]; decide)]
      exact ⟨_, rfl⟩
  | waiting =>
      dsimp only
      cases hsegs : s.segs with
      | cons item segs => exact ⟨_, rfl⟩
      | nil =>
          rcases hwaits rfl with hsegs' | hclosed
          · exact absurd hsegs hsegs'
          · dsimp only
            rw [if_pos hclosed]
            exact ⟨_, rfl⟩

/-- While the main thread is blocked a compress worker is not. -/
theorem Threads.compressor_of_blocked (h : Threads files s) {item : SegItem state}
    {resume : Resume} (hat : s.main = .shipping item .blocked resume)
    (hnone : s.compressed = []) : ∃ i s', s.compressorStep i = .ok s' := by
  have hopen : s.segsClosed = false := by rw [Pipeline.segsClosed, hat]
  have hgoing : .finished ∉ s.compressors := by
    intro hmem
    rw [(h.compresses.closed hmem).1] at hopen
    cases hopen
  by_cases hsegs : s.segs = []
  · -- a worker holds a segment
    have hcard := h.blocked item resume hat
    rw [inFlight, hat, hsegs, hnone, mainItems, List.map_nil, Multiset.coe_nil, add_zero,
      add_zero, Multiset.card_add, Multiset.card_singleton] at hcard
    have hheld : ∃ c ∈ s.compressors, heldItems c ≠ 0 := by
      by_contra hnot
      push Not at hnot
      rw [sum_map_eq_zero hnot, Multiset.card_zero] at hcard
      omega
    obtain ⟨c, hmem, hitems⟩ := hheld
    refine compressorStep_ok hmem (fun heq => hgoing (heq ▸ hmem)) hnone ?_
    rintro rfl
    exact absurd rfl hitems
  · obtain ⟨c, hmem⟩ := List.exists_mem_of_ne_nil _ h.compresses.nonempty
    exact compressorStep_ok hmem (fun heq => hgoing (heq ▸ hmem)) hnone fun _ => .inl hsegs

/-- Some thread can take a step until the main thread has joined the others. -/
theorem Threads.progress (h : Threads files s) (hjoined : s.main ≠ .joined) :
    ∃ turn s', s.step files turn = .ok s' := by
  have hcompressor : (∃ i s', s.compressorStep i = .ok s') → ∃ turn s', s.step files turn = .ok s' :=
    fun ⟨i, s', hstep⟩ => ⟨.compressor i, s', hstep⟩
  have hmain : (∃ s', s.mainStep = .ok s') → ∃ turn s', s.step files turn = .ok s' :=
    fun ⟨s', hstep⟩ => ⟨.main, s', hstep⟩
  have hphase := h.phase
  cases hat : s.main with
  | draining => exact hmain ⟨_, by rw [Pipeline.mainStep, hat]⟩
  | receiving =>
      apply hmain
      rw [Pipeline.mainStep, hat]
      dsimp only
      cases s.route with
      | nil =>
          dsimp only
          split_ifs <;> exact ⟨_, rfl⟩
      | cons message route => cases message <;> exact ⟨_, rfl⟩
  | splitting p =>
      apply hmain
      rw [Pipeline.mainStep, hat]
      dsimp only
      split_ifs <;> exact ⟨_, rfl⟩
  | shipping item attempt resume =>
      cases attempt with
      | blocked =>
          cases hcompressed : s.compressed with
          | nil => exact hcompressor (h.compressor_of_blocked hat hcompressed)
          | cons cs compressed =>
              apply hmain
              rw [Pipeline.mainStep, hat]
              dsimp only
              rw [Pipeline.writeNext, hcompressed]
              exact ⟨_, rfl⟩
      | _ => exact hmain ⟨_, by rw [Pipeline.mainStep, hat]⟩
  | flushing p =>
      apply hmain
      rw [Pipeline.mainStep, hat]
      dsimp only
      split_ifs <;> exact ⟨_, rfl⟩
  | collecting =>
      cases hcompressed : s.compressed with
      | nil =>
          by_cases hdone : s.compressorsDone = true
          · apply hmain
            rw [Pipeline.mainStep, hat]
            dsimp only
            rw [Pipeline.writeNext, hcompressed]
            dsimp only
            rw [if_pos hdone]
            exact ⟨_, rfl⟩
          · rw [compressorsDone_iff] at hdone
            push Not at hdone
            obtain ⟨c, hmem, hne⟩ := hdone
            refine hcompressor (compressorStep_ok hmem hne hcompressed fun _ => .inr ?_)
            rw [Pipeline.segsClosed, hat]
      | cons cs compressed =>
          apply hmain
          rw [Pipeline.mainStep, hat]
          dsimp only
          rw [Pipeline.writeNext, hcompressed]
          exact ⟨_, rfl⟩
  | joined => exact absurd hat hjoined
  | failed e =>
      rw [hat] at hphase
      exact hphase.elim

end DeltaX.Copy.ParquetPipeline
