import DeltaX.Agg.MetadataRows
import Mathlib.Algebra.BigOperators.Ring.List
/-!
# When metadata answers for the rows

What the segments add is summed up by whichever route each of them takes.  The sums and the
counts are those of the rows; zero counts, shifts and NaNs are where the answer can differ.
-/

namespace DeltaX.Agg.MetadataFastPath

open Column Stats.Encoding Stats.Colstats Scan Scan.MinMax Scan.IntClassify Scan.FloatPruning
open Support.KeySpan Support.IeeeOrder Support.Extremes

variable {types : Text → NumType}

/-! ## Folds over segments -/

section folds

variable {S M : Type*} [AddCommMonoid M] {step : M → S → M} {c : S → M}

theorem foldl_add_of_step {segs : List S} (h : ∀ s ∈ segs, ∀ m, step m s = m + c s) (m : M) :
    segs.foldl step m = m + (segs.map c).sum := by
  induction segs generalizing m with
  | nil => simp
  | cons s segs ih =>
      rw [List.foldl_cons, ih fun s' hs' => h s' (List.mem_cons_of_mem _ hs'),
        h s List.mem_cons_self, List.map_cons, List.sum_cons, add_assoc]

theorem flatten_chunks (size : ℕ) (segs : List S) :
    (chunks size segs).flatten = segs := by
  fun_induction chunks size segs with
  | case1 => rfl
  | case2 x xs ih => rw [List.flatten_cons, ih, List.cons_append, List.take_append_drop]

/-- Workers add up what one process does. -/
theorem foldl_chunks {segs : List S} (h : ∀ s ∈ segs, ∀ m, step m s = m + c s) (size : ℕ)
    (m : M) :
    ((chunks size segs).map fun chunk => chunk.foldl step 0).foldl (· + ·) m =
      m + (segs.map c).sum := by
  have hchunk : ∀ chunk ∈ chunks size segs, chunk.foldl step 0 = (chunk.map c).sum := by
    intro chunk hchunk
    rw [foldl_add_of_step (c := c), zero_add]
    intro s hs
    apply h
    rw [← flatten_chunks size segs]
    exact List.mem_flatten_of_mem hchunk hs
  calc ((chunks size segs).map fun chunk => chunk.foldl step 0).foldl (· + ·) m
      = m + ((chunks size segs).map fun chunk => chunk.foldl step 0).sum := by
        have hsum : ((chunks size segs).map fun chunk => chunk.foldl step 0).foldl
            (fun m x : M => m + x) m = _ := foldl_add_of_step (c := id) (fun _ _ _ => rfl) m
        rwa [List.map_id] at hsum
    _ = m + ((chunks size segs).map fun chunk => (chunk.map c).sum).sum := by
        rw [List.map_congr_left hchunk]
    _ = m + (segs.map c).sum := by
        conv_rhs => rw [← flatten_chunks size segs, List.map_flatten, List.sum_flatten]
        rw [List.map_map]
        rfl

end folds

theorem foldl_slots {ι S : Type*} {β : ι → Type*} (step : (i : ι) → β i → S → β i) (segs : List S)
    (accs : (i : ι) → β i) (i : ι) :
    segs.foldl (fun accs s j => step j (accs j) s) accs i = segs.foldl (step i) (accs i) := by
  induction segs generalizing accs with
  | nil => rfl
  | cons s segs ih => exact ih _

/-! ## The classification of all segments -/

section classified

variable {info : MetadataInfo} {quals : List BatchQual} {segments : List (Segment types)}

def unsettled (info : MetadataInfo) (quals : List BatchQual) (segments : List (Segment types)) :
    List (Segment types) :=
  segments.filter fun seg => decide (seg.rowCount ≠ 0) &&
    decide (classifySegmentQuals seg.toSegmentData quals info.colNames info.timeColumn =
      some .ambiguous)

/-- The two lists of `preClassify` and what was skipped. -/
structure Classified (info : MetadataInfo) (quals : List BatchQual)
    (segments allpass ambiguous : List (Segment types)) : Prop where
  whole : ∀ seg ∈ allpass, seg ∈ segments ∧ seg.qualifying info quals = List.range seg.rows
  unsettled_eq : ambiguous = unsettled info quals segments
  sum_eq : ∀ {M : Type} [AddCommMonoid M] (c : Segment types → M),
    (∀ seg ∈ segments, seg.qualifying info quals = [] → c seg = 0) →
      (allpass.map c).sum + (ambiguous.map c).sum = (segments.map c).sum

theorem preClassify_spec (hover : QualsOver types info quals)
    (htime : ∀ seg ∈ segments, seg.TimeNotNull info) {allpass ambiguous : List (Segment types)}
    (h : preClassify info quals segments = some (allpass, ambiguous)) :
    Classified info quals segments allpass ambiguous := by
  induction segments generalizing allpass ambiguous with
  | nil =>
      cases h
      exact ⟨fun _ hseg => absurd hseg List.not_mem_nil, rfl, fun _ _ => by simp⟩
  | cons seg rest ih =>
      have hrest := fun s hs => htime s (List.mem_cons_of_mem seg hs)
      unfold preClassify at h
      by_cases hzero : seg.rowCount = 0
      · -- an empty segment is passed over
        rw [if_pos hzero] at h
        obtain ⟨hwhole, heq, hsum⟩ := ih hrest h
        refine ⟨fun s hs => ⟨List.mem_cons_of_mem _ (hwhole s hs).1, (hwhole s hs).2⟩, ?_, ?_⟩
        · rw [heq, unsettled, unsettled, List.filter_cons_of_neg (by simp [hzero])]
        · intro M _ c hc
          rw [List.map_cons, List.sum_cons,
            hc seg List.mem_cons_self (qualifying_of_rowCount_zero hzero), zero_add]
          exact hsum c fun s hs => hc s (List.mem_cons_of_mem _ hs)
      · rw [if_neg hzero] at h
        simp only [Option.bind_eq_bind] at h
        obtain ⟨result, hclass, h⟩ := Option.bind_eq_some_iff.mp h
        obtain ⟨⟨ap, amb⟩, hpre, h⟩ := Option.bind_eq_some_iff.mp h
        obtain ⟨hwhole, heq, hsum⟩ := ih hrest hpre
        have hmem : ∀ s ∈ ap, s ∈ seg :: rest ∧ s.qualifying info quals = List.range s.rows :=
          fun s hs => ⟨List.mem_cons_of_mem _ (hwhole s hs).1, (hwhole s hs).2⟩
        cases result with
        | allPass =>
            cases h
            refine ⟨?_, ?_, ?_⟩
            · intro s hs
              rcases List.mem_cons.mp hs with rfl | hs
              · exact ⟨List.mem_cons_self,
                  qualifying_of_allPass hover (htime s List.mem_cons_self) hclass⟩
              · exact hmem s hs
            · rw [heq, unsettled, unsettled, List.filter_cons_of_neg (by simp [hclass])]
            · intro M _ c hc
              rw [List.map_cons, List.sum_cons, List.map_cons, List.sum_cons, add_assoc,
                hsum c fun s hs => hc s (List.mem_cons_of_mem _ hs)]
        | nonePass =>
            cases h
            refine ⟨hmem, ?_, ?_⟩
            · rw [heq, unsettled, unsettled, List.filter_cons_of_neg (by simp [hclass])]
            · intro M _ c hc
              rw [List.map_cons, List.sum_cons,
                hc seg List.mem_cons_self (qualifying_of_nonePass hover hclass), zero_add]
              exact hsum c fun s hs => hc s (List.mem_cons_of_mem _ hs)
        | ambiguous =>
            cases h
            refine ⟨hmem, ?_, ?_⟩
            · rw [heq, unsettled, unsettled, List.filter_cons_of_pos (by simp [hzero, hclass])]
            · intro M _ c hc
              rw [List.map_cons, List.sum_cons, List.map_cons, List.sum_cons, add_left_comm,
                hsum c fun s hs => hc s (List.mem_cons_of_mem _ hs)]

/-- Without quals every segment with rows is taken whole. -/
theorem preClassify_nil (segments : List (Segment types)) :
    preClassify info [] segments =
      some (segments.filter fun seg => decide (seg.rowCount > 0), []) := by
  induction segments with
  | nil => rfl
  | cons seg rest ih =>
      have hcount := seg.rowCount_eq
      unfold preClassify
      by_cases hzero : seg.rowCount = 0
      · rw [if_pos hzero, ih, List.filter_cons_of_neg (by simp [hzero])]
      · have hpos : seg.rowCount > 0 := by omega
        rw [if_neg hzero, ih, List.filter_cons_of_pos (by simpa using hpos)]
        rfl

end classified

/-! ## The result of a slot -/

def ParsedAggPlan.whereQuals (plan : ParsedAggPlan) (quals : List BatchQual) : List BatchQual :=
  if plan.hasWhere then quals else []

section slot

variable (info : MetadataInfo) (quals : List BatchQual) (nWorkers : ℕ) (spec : AggExecSpec)
  (k : AccKind)

/-- The accumulator of an aggregate after the segments that are taken whole. -/
def takenWhole (allpass : List (Segment types)) : Acc k :=
  allpass.foldl (fun acc seg => accumulateSegmentMetadata info seg.toSegmentMeta spec k acc)
    (empty k)

/-- The accumulator after the segments that are filtered row by row. -/
def filtered (ambiguous : List (Segment types)) (acc : Acc k) : Acc k :=
  let scan (acc : Acc k) (segs : List (Segment types)) : Acc k :=
    segs.foldl (fun acc seg => accumulateSegmentDecompressed info seg quals spec k acc) acc
  if nWorkers > 1 then
    ((chunks ((ambiguous.length + nWorkers - 1) / nWorkers) ambiguous).map (scan (empty k))).foldl
      (mergeAccumulator k) acc
  else scan acc ambiguous

def finalAcc (specs : List MetaSpec) (allpass ambiguous : List (Segment types)) : Acc k :=
  match zeroCounted info specs quals ambiguous with
  | some bq => ambiguous.foldl (fun acc seg =>
      addPassing spec (passing info bq seg.toSegmentMeta) k acc) (takenWhole info spec k allpass)
  | none => filtered info quals nWorkers spec k ambiguous (takenWhole info spec k allpass)

end slot

section results

variable {info : MetadataInfo} {plan : ParsedAggPlan} {quals : List BatchQual} {nWorkers : ℕ}
  {segments : List (Segment types)}

structure Answerable (info : MetadataInfo) (plan : ParsedAggPlan) (quals : List BatchQual)
    (segments : List (Segment types)) : Prop where
  ungrouped : (plan.grouped || plan.having) = false
  numeric : (plan.hasWhere &&
    (quals.isEmpty || quals.any fun bq => !isNumericType bq.typeOid)) = false
  resolved : ∀ spec ∈ plan.aggSpecs, resolvable plan.hasWhere spec.toAggExecSpec = true
  loaded : ∀ spec ∈ plan.aggSpecs, ∀ seg ∈ segments,
    available info spec.toAggExecSpec seg.toSegmentMeta = true

theorem decompressAll_slot (specs : List MetaSpec) (ambiguous : List (Segment types))
    (accs : Accs specs) (slot : Fin specs.length) :
    decompressAll info specs quals nWorkers ambiguous accs slot =
      filtered info quals nWorkers (specs.get slot).toAggExecSpec (specs.get slot).kind ambiguous
        (accs slot) := by
  unfold decompressAll filtered
  dsimp only
  split
  · rw [foldl_slots (fun slot acc (localAcc : Accs specs) => mergeAccumulator _ acc (localAcc slot)),
      List.foldl_map, List.foldl_map]
    congr 1
    funext acc chunk
    rw [foldl_slots (fun slot acc seg => accumulateSegmentDecompressed info seg quals
      (specs.get slot).toAggExecSpec _ acc)]
  · exact foldl_slots (fun slot acc seg => accumulateSegmentDecompressed info seg quals
      (specs.get slot).toAggExecSpec _ acc) _ _ _

theorem finalizeAll_eq {specs : List MetaSpec} (accs : Accs specs)
    (final : (spec : AggExecSpec) → (k : AccKind) → Acc k)
    (h : ∀ slot, accs slot = final (specs.get slot).toAggExecSpec (specs.get slot).kind) :
    finalizeAll accs =
      specs.map fun spec => finalizeAccumulator spec.toAggExecSpec spec.kind
        (final spec.toAggExecSpec spec.kind) := by
  unfold finalizeAll
  apply List.ext_getElem
  · simp
  · intro i hi hi'
    simp only [List.getElem_ofFn, List.getElem_map, h]
    rfl

theorem tryMetadataFastPath_eq (h : Answerable info plan quals segments) :
    tryMetadataFastPath info plan quals nWorkers segments =
      (preClassify info (plan.whereQuals quals) segments).bind fun lists =>
        if zeroCounted info plan.aggSpecs quals lists.2 = none ∧
            (lists.2.any fun seg => !seg.blobsLoaded) = true then none
        else some
          { results := plan.aggSpecs.map fun spec =>
              finalizeAccumulator spec.toAggExecSpec spec.kind
                (finalAcc info quals nWorkers spec.toAggExecSpec spec.kind plan.aggSpecs lists.1
                  lists.2)
            totalSegments := segments.length
            segmentsMetadataResolved := lists.1.length
            segmentsDecompressed :=
              if zeroCounted info plan.aggSpecs quals lists.2 = none then lists.2.length else 0 } := by
  have hresolved : (plan.aggSpecs.all fun spec =>
      resolvable plan.hasWhere spec.toAggExecSpec) = true := List.all_eq_true.mpr h.resolved
  have hloaded : (plan.aggSpecs.all fun spec => segments.all fun seg =>
      available info spec.toAggExecSpec seg.toSegmentMeta) = true :=
    List.all_eq_true.mpr fun spec hspec => List.all_eq_true.mpr (h.loaded spec hspec)
  have hlists : settled info plan quals segments =
      preClassify info (plan.whereQuals quals) segments := by
    unfold settled ParsedAggPlan.whereQuals
    split
    · rfl
    · rw [preClassify_nil]
  unfold tryMetadataFastPath
  rw [if_neg (by rw [h.ungrouped]; decide), if_neg (by rw [h.numeric]; decide),
    if_neg (by rw [hresolved]; decide), if_neg (by rw [hloaded]; decide), hlists]
  show Option.bind _ _ = Option.bind _ _
  congr 1
  funext lists
  obtain ⟨allpass, ambiguous⟩ := lists
  dsimp only
  have hwhole : ∀ slot : Fin plan.aggSpecs.length, allpass.foldl (fun accs seg slot =>
      accumulateSegmentMetadata info seg.toSegmentMeta (plan.aggSpecs.get slot).toAggExecSpec
        (plan.aggSpecs.get slot).kind (accs slot)) (fun _ => empty _) slot =
      takenWhole info (plan.aggSpecs.get slot).toAggExecSpec (plan.aggSpecs.get slot).kind
        allpass := fun slot =>
    foldl_slots (fun slot acc (seg : Segment types) => accumulateSegmentMetadata info
      seg.toSegmentMeta (plan.aggSpecs.get slot).toAggExecSpec _ acc) _ _ _
  cases hzero : zeroCounted info plan.aggSpecs quals ambiguous with
  | some bq =>
      simp only [reduceCtorEq, false_and, if_false, Option.some.injEq, AggScanState.mk.injEq,
        and_true]
      apply finalizeAll_eq _ fun spec k =>
        finalAcc info quals nWorkers spec k plan.aggSpecs allpass ambiguous
      intro slot
      rw [foldl_slots (fun slot acc (seg : Segment types) => addPassing
        (plan.aggSpecs.get slot).toAggExecSpec (passing info bq seg.toSegmentMeta) _ acc), hwhole]
      unfold finalAcc
      rw [hzero]
  | none =>
      simp only [true_and, if_true]
      split
      · rfl
      · simp only [Option.some.injEq, AggScanState.mk.injEq, and_true]
        apply finalizeAll_eq _ fun spec k =>
          finalAcc info quals nWorkers spec k plan.aggSpecs allpass ambiguous
        intro slot
        rw [decompressAll_slot, hwhole]
        unfold finalAcc
        rw [hzero]

theorem answerable_of_answer
    (h : (tryMetadataFastPath info plan quals nWorkers segments).isSome = true) :
    Answerable info plan quals segments := by
  unfold tryMetadataFastPath at h
  split at h
  · cases h
  · rename_i hgrouped
    split at h
    · cases h
    · rename_i hnumeric
      split at h
      · cases h
      · rename_i hresolved
        split at h
        · cases h
        · rename_i hloaded
          simp only [Bool.not_eq_true, Bool.not_eq_false'] at hgrouped hnumeric hresolved hloaded
          refine ⟨hgrouped, hnumeric, List.all_eq_true.mp hresolved, ?_⟩
          intro spec hspec
          exact List.all_eq_true.mp (List.all_eq_true.mp hloaded spec hspec)

theorem results_of_answer {state : AggScanState}
    (h : tryMetadataFastPath info plan quals nWorkers segments = some state) :
    ∃ allpass ambiguous,
      preClassify info (plan.whereQuals quals) segments = some (allpass, ambiguous) ∧
      state.results = plan.aggSpecs.map fun spec => finalizeAccumulator spec.toAggExecSpec spec.kind
        (finalAcc info quals nWorkers spec.toAggExecSpec spec.kind plan.aggSpecs allpass
          ambiguous) := by
  rw [tryMetadataFastPath_eq (answerable_of_answer (by rw [h]; rfl))] at h
  obtain ⟨⟨allpass, ambiguous⟩, hpre, h⟩ := Option.bind_eq_some_iff.mp h
  split at h
  · cases h
  · cases h
    exact ⟨allpass, ambiguous, hpre, rfl⟩

theorem exists_answer_of_perm (hwhere : plan.hasWhere = false)
    (h : (tryMetadataFastPath info plan quals nWorkers segments).isSome = true)
    {segments' : List (Segment types)} (hperm : segments'.Perm segments) :
    ∃ state, tryMetadataFastPath info plan quals nWorkers segments' = some state := by
  have hanswerable := answerable_of_answer h
  have hanswerable' : Answerable info plan quals segments' :=
    ⟨hanswerable.ungrouped, hanswerable.numeric, hanswerable.resolved, fun spec hspec seg hseg =>
      hanswerable.loaded spec hspec seg (hperm.mem_iff.mp hseg)⟩
  rw [tryMetadataFastPath_eq hanswerable']
  have hquals : plan.whereQuals quals = [] := by simp [ParsedAggPlan.whereQuals, hwhere]
  rw [hquals, preClassify_nil, Option.bind_some]
  simp

end results

/-! ## Counts and sums -/

section additive

variable {info : MetadataInfo} {quals wquals : List BatchQual} {nWorkers : ℕ} {spec : AggExecSpec}
  {specs : List MetaSpec} {segments allpass ambiguous : List (Segment types)}

theorem takenWhole_count (hkind : newFor spec.aggType spec.colTypeOid = some .count)
    (hspec : spec.aggType = .count → SpecOver types info spec)
    (havail : ∀ seg ∈ segments, available info spec seg.toSegmentMeta = true)
    (hclass : Classified info wquals segments allpass ambiguous) :
    (takenWhole info spec .count allpass : ℤ) =
      (allpass.map fun seg => (addition info wquals spec seg .count : ℤ)).sum := by
  rw [← zero_add (List.sum _)]
  apply foldl_add_of_step (M := ℤ)
  intro seg hseg count
  obtain ⟨hmem, hall⟩ := hclass.whole seg hseg
  exact accumulateSegmentMetadata_count (count_of_newFor hkind) hspec (havail seg hmem) hall count

theorem takenWhole_sumInt (hkind : newFor spec.aggType spec.colTypeOid = some .sumInt)
    (hspec : SpecOver types info spec)
    (havail : ∀ seg ∈ segments, available info spec seg.toSegmentMeta = true)
    (hclass : Classified info wquals segments allpass ambiguous) :
    (takenWhole info spec .sumInt allpass : ℤ × ℤ) =
      (allpass.map fun seg => (addition info wquals spec seg .sumInt : ℤ × ℤ)).sum := by
  rw [← zero_add (List.sum _)]
  apply foldl_add_of_step (M := ℤ × ℤ)
  intro seg hseg acc
  obtain ⟨hmem, hall⟩ := hclass.whole seg hseg
  exact accumulateSegmentMetadata_sumInt hkind hspec (havail seg hmem) hall acc

theorem intValues_of_none {seg : Segment types} (h : seg.qualifying info wquals = []) (name : Text) :
    seg.intValues info wquals name = [] := by
  rw [Segment.intValues, h]
  rfl

theorem addition_count_of_none {seg : Segment types} (h : seg.qualifying info wquals = []) :
    (addition info wquals spec seg .count : ℤ) = 0 := by
  simp only [addition, h, intValues_of_none h]
  split <;> rfl

theorem addition_sumInt_of_none {seg : Segment types} (h : seg.qualifying info wquals = []) :
    (addition info wquals spec seg .sumInt : ℤ × ℤ) = 0 := by
  simp only [addition, intValues_of_none h]
  rfl

/-- The segments that are not settled are filtered by the quals of the WHERE clause. -/
def Filtered (info : MetadataInfo) (quals wquals : List BatchQual)
    (ambiguous : List (Segment types)) : Prop :=
  ∀ seg ∈ ambiguous, wquals = quals ∧ seg.selection info quals = seg.qualifying info quals

theorem finalAcc_count (hkind : newFor spec.aggType spec.colTypeOid = some .count)
    (hspec : spec.aggType = .count → SpecOver types info spec)
    (havail : ∀ seg ∈ segments, available info spec seg.toSegmentMeta = true)
    (hclass : Classified info wquals segments allpass ambiguous)
    (hzero : zeroCounted info specs quals ambiguous = none)
    (hselect : Filtered info quals wquals ambiguous) :
    (finalAcc info quals nWorkers spec .count specs allpass ambiguous : ℤ) =
      (segments.map fun seg => (addition info wquals spec seg .count : ℤ)).sum := by
  have hstep : ∀ seg ∈ ambiguous, ∀ count : ℤ,
      accumulateSegmentDecompressed info seg quals spec .count count =
        count + (addition info wquals spec seg .count : ℤ) := by
    intro seg hseg count
    obtain ⟨rfl, hselection⟩ := hselect seg hseg
    exact accumulateSegmentDecompressed_count (count_of_newFor hkind) hspec hselection count
  unfold finalAcc
  rw [hzero]
  dsimp only
  rw [takenWhole_count hkind hspec havail hclass,
    ← hclass.sum_eq (M := ℤ) _ fun seg _ h => addition_count_of_none h]
  unfold filtered
  dsimp only
  split
  · exact foldl_chunks (M := ℤ) hstep _ _
  · exact foldl_add_of_step (M := ℤ) hstep _

theorem finalAcc_sumInt (hkind : newFor spec.aggType spec.colTypeOid = some .sumInt)
    (hspec : SpecOver types info spec)
    (havail : ∀ seg ∈ segments, available info spec seg.toSegmentMeta = true)
    (hclass : Classified info wquals segments allpass ambiguous)
    (hzero : zeroCounted info specs quals ambiguous = none)
    (hselect : Filtered info quals wquals ambiguous) :
    (finalAcc info quals nWorkers spec .sumInt specs allpass ambiguous : ℤ × ℤ) =
      (segments.map fun seg => (addition info wquals spec seg .sumInt : ℤ × ℤ)).sum := by
  have hstep : ∀ seg ∈ ambiguous, ∀ acc : ℤ × ℤ,
      accumulateSegmentDecompressed info seg quals spec .sumInt acc =
        acc + (addition info wquals spec seg .sumInt : ℤ × ℤ) := by
    intro seg hseg acc
    obtain ⟨rfl, hselection⟩ := hselect seg hseg
    exact accumulateSegmentDecompressed_sumInt hkind hspec hselection acc
  unfold finalAcc
  rw [hzero]
  dsimp only
  rw [takenWhole_sumInt hkind hspec havail hclass,
    ← hclass.sum_eq (M := ℤ × ℤ) _ fun seg _ h => addition_sumInt_of_none h]
  unfold filtered
  dsimp only
  split
  · exact foldl_chunks (M := ℤ × ℤ) hstep _ _
  · exact foldl_add_of_step (M := ℤ × ℤ) hstep _

theorem finalAcc_zeroCounted (hagg : spec.aggType = .countStar)
    (hclass : Classified info wquals segments allpass ambiguous) {bq : BatchQual}
    (hzero : zeroCounted info specs quals ambiguous = some bq) :
    (finalAcc info quals nWorkers spec .count specs allpass ambiguous : ℤ) =
      (segments.map fun seg => (addition info wquals spec seg .count : ℤ)).sum +
        (ambiguous.map fun seg => passing info bq seg.toSegmentMeta -
          ((seg.qualifying info wquals).length : ℤ)).sum := by
  have hkind : newFor spec.aggType spec.colTypeOid = some .count := by simp [newFor, hagg]
  have havail : ∀ seg ∈ segments, available info spec seg.toSegmentMeta = true := by
    simp [available, hagg]
  have hstep : ∀ seg ∈ ambiguous, ∀ count : ℤ,
      (addPassing spec (passing info bq seg.toSegmentMeta) .count count : ℤ) =
        count + passing info bq seg.toSegmentMeta := by
    intro seg _ count
    simp only [addPassing, hagg, if_true]
  unfold finalAcc
  rw [hzero]
  dsimp only
  rw [foldl_add_of_step (M := ℤ) hstep, takenWhole_count hkind (by simp [hagg]) havail hclass,
    ← hclass.sum_eq (M := ℤ) _ fun seg _ h => addition_count_of_none h, add_assoc,
    ← List.sum_map_add]
  simp only [addition, hagg, add_sub_cancel]

theorem sum_addition_sumInt (segments : List (Segment types)) :
    (segments.map fun seg => (addition info wquals spec seg .sumInt : ℤ × ℤ)).sum =
      (((rowResult.values info wquals segments spec).map fun v => v + addConst spec).sum,
        ((rowResult.values info wquals segments spec).length : ℤ)) := by
  unfold rowResult.values rowResult.name
  induction segments with
  | nil => rfl
  | cons seg segments ih =>
      rw [List.map_cons, List.sum_cons, ih, List.flatMap_cons, List.map_append, List.sum_append,
        List.length_append]
      push_cast
      rfl

theorem sum_addition_count (hagg : spec.aggType = .count) (segments : List (Segment types)) :
    (segments.map fun seg => (addition info wquals spec seg .count : ℤ)).sum =
      (rowResult.values info wquals segments spec).length := by
  unfold rowResult.values rowResult.name
  induction segments with
  | nil => rfl
  | cons seg segments ih =>
      rw [List.map_cons, List.sum_cons, ih, List.flatMap_cons, List.length_append]
      simp only [addition, hagg]
      push_cast
      rfl

theorem finalize_sumInt (hagg : spec.aggType = .sum ∨ spec.aggType = .avg)
    (hacc : (finalAcc info quals nWorkers spec .sumInt specs allpass ambiguous : ℤ × ℤ) =
      (segments.map fun seg => (addition info wquals spec seg .sumInt : ℤ × ℤ)).sum) :
    (finalizeAccumulator spec .sumInt
        (finalAcc info quals nWorkers spec .sumInt specs allpass ambiguous)).map observe =
      rowResult info wquals segments spec := by
  rw [sum_addition_sumInt] at hacc
  generalize finalAcc info quals nWorkers spec .sumInt specs allpass ambiguous = acc at *
  unfold finalizeAccumulator rowResult
  dsimp only
  have hnil : ((rowResult.values info wquals segments spec).length : ℤ) = 0 ↔
      rowResult.values info wquals segments spec = [] := by
    rw [Nat.cast_eq_zero, List.length_eq_zero_iff]
  by_cases hvalues : rowResult.values info wquals segments spec = []
  · rw [hacc, if_pos (hnil.mpr hvalues)]
    rcases hagg with hagg | hagg <;> simp only [hagg, hvalues, if_true] <;> rfl
  · rw [hacc, if_neg (mt hnil.mp hvalues)]
    rcases hagg with hagg | hagg
    · simp only [hagg, if_neg hvalues]
      split <;> rfl
    · simp only [hagg, if_neg hvalues]
      simp [observe]

end additive

/-! ## The zero counts -/

section zeros

variable {info : MetadataInfo} {quals : List BatchQual} {specs : List MetaSpec}
  {segments ambiguous : List (Segment types)} {bq : BatchQual}

def Segment.qualInts (seg : Segment types) (info : MetadataInfo) (bq : BatchQual) : List ℤ :=
  ((types (info.colName bq.colIdx)).ints (seg.cells (info.colName bq.colIdx))).reduceOption

theorem zeroCounted_spec (h : zeroCounted info specs quals ambiguous = some bq) :
    quals = [bq] ∧ (∀ spec ∈ specs, spec.aggType = .countStar) ∧
      isZeroConst bq.constDatum bq.typeOid = true ∧ (bq.op = .ne ∨ bq.op = .eq) ∧
      ∀ seg ∈ ambiguous, ∃ cs, seg.colSums (info.colName bq.colIdx) = some cs := by
  unfold zeroCounted at h
  split at h
  · split at h
    · rename_i hcond
      cases h
      simp only [Bool.and_eq_true, List.all_eq_true, decide_eq_true_eq, Bool.or_eq_true] at hcond
      obtain ⟨⟨⟨hspecs, hconst⟩, hop⟩, hsums⟩ := hcond
      refine ⟨rfl, hspecs, hconst, hop, ?_⟩
      intro seg hseg
      cases hcs : seg.colSums (info.colName bq.colIdx) with
      | none => simpa [hcs] using hsums seg hseg
      | some cs => exact ⟨cs, rfl⟩
    · cases h
  · cases h

theorem length_filter_range {α : Type*} (p : α → Bool) (cells : List (Option α)) :
    ((List.range cells.length).filter fun i => (cells[i]?).join.any p).length =
      (cells.reduceOption.filter p).length := by
  induction cells using List.reverseRecOn with
  | nil => rfl
  | append_singleton cells cell ih =>
      rw [List.length_append, List.length_singleton, List.range_succ, List.filter_append,
        List.reduceOption_append, List.filter_append, List.length_append, List.length_append]
      congr 1
      · rw [← ih]
        congr 1
        apply List.filter_congr
        intro i hi
        rw [List.getElem?_append_left (List.mem_range.mp hi)]
      · rw [List.filter_cons, List.getElem?_concat_length]
        cases cell with
        | none => rfl
        | some v =>
            show (if p v = true then _ else _ : List ℕ).length = ([v].filter p).length
            rw [List.filter_cons]
            split <;> rfl

theorem length_qualifying {u : IntType} (hqual : QualOver types info bq u) (seg : Segment types) :
    (seg.qualifying info [bq]).length = ((seg.qualInts info bq).filter (holds bq)).length := by
  rw [Segment.qualInts, ← length_filter_range, ints_length hqual.type_eq, Segment.qualifying]
  congr 1
  apply List.filter_congr
  intro i _
  rw [List.all_cons, List.all_nil, Bool.and_true]
  rfl

/-- A constant other than zero whose low bits are zero is not a value of the column. -/
theorem ne_constDatum {u : IntType} (hqual : QualOver types info bq u) (seg : Segment types)
    (hzero : isZeroConst bq.constDatum bq.typeOid = true) (hne : bq.constDatum ≠ 0) :
    ∀ v ∈ seg.qualInts info bq, v ≠ bq.constDatum.toInt := by
  intro v hv heq
  obtain ⟨col, hcol⟩ := NumType.exists_intColumn hqual.type_eq (seg.cells (info.colName bq.colIdx))
  obtain ⟨htype, hints, -⟩ := NumType.of_intColumn hcol
  rw [Segment.qualInts, hints, List.reduceOption_map] at hv
  obtain ⟨x, -, rfl⟩ := List.mem_map.mp hv
  rw [hqual.type_eq, NumType.int.injEq] at htype
  rw [hqual.typeOid_eq, htype] at hzero
  have hconst := col.constDatum_eq_zero hzero heq.le heq.ge
  exact hne (BitVec.eq_of_toInt_eq hconst)

theorem length_filter_ne_zero (values : List ℤ) :
    ((values.filter fun v => decide (v ≠ 0)).length : ℤ) =
      values.length - ((values.filter fun v => decide (v = 0)).length : ℤ) := by
  have hsplit := List.length_eq_length_filter_add (l := values) fun v => decide (v = 0)
  simp only [ne_eq, decide_not]
  rw [hsplit]
  push_cast
  ring

/-- The zero counts are those of a zero constant; with another one they are wrong about the
zeros. -/
theorem passing_eq {u : IntType} (hqual : QualOver types info bq u) (seg : Segment types)
    (hzero : isZeroConst bq.constDatum bq.typeOid = true) (hop : bq.op = .ne ∨ bq.op = .eq)
    {cs : ColSum} (hcs : seg.colSums (info.colName bq.colIdx) = some cs) :
    passing info bq seg.toSegmentMeta - ((seg.qualifying info [bq]).length : ℤ) =
      if bq.constDatum = 0 then 0
      else (if bq.op = .ne then -1 else 1) *
        (((seg.qualInts info bq).filter fun v => decide (v = 0)).length : ℤ) := by
  have hcounts := seg.sums_eq _ cs hcs
  rw [NumType.computeTypedSum_int hqual.type_eq] at hcounts
  have hout := ne_constDatum hqual seg hzero
  rw [length_qualifying hqual]
  unfold passing
  simp only [hcs, hcounts]
  change ∀ hne : bq.constDatum ≠ 0, ∀ v ∈ seg.qualInts info bq, v ≠ bq.constDatum.toInt at hout
  show (if bq.op = .ne then (((seg.qualInts info bq).filter fun v => decide (v ≠ 0)).length : ℤ)
      else ((seg.qualInts info bq).length : ℤ) -
        (((seg.qualInts info bq).filter fun v => decide (v ≠ 0)).length : ℤ)) - _ = _
  generalize seg.qualInts info bq = values at *
  rw [length_filter_ne_zero]
  have hholds : ∀ v, holds bq v =
      if bq.op = .ne then decide (v ≠ bq.constDatum.toInt) else decide (v = bq.constDatum.toInt) := by
    intro v
    rcases hop with hop | hop
    · simp only [holds, hop, BatchCompareOp.comparison, if_true]
      exact decide_eq_decide.mpr Iff.rfl
    · simp only [holds, hop, BatchCompareOp.comparison, reduceCtorEq, if_false]
      exact decide_eq_decide.mpr Iff.rfl
  by_cases hconst : bq.constDatum = 0
  · have hfilter : values.filter (holds bq) =
        values.filter fun v => if bq.op = .ne then decide (v ≠ 0) else decide (v = 0) := by
      apply List.filter_congr
      intro v _
      rw [hholds, hconst]
      rfl
    rw [if_pos hconst, hfilter]
    rcases hop with hop | hop
    · simp only [hop, if_true]
      rw [length_filter_ne_zero]
      ring
    · simp only [hop, reduceCtorEq, if_false]
      ring
  · rw [if_neg hconst]
    rcases hop with hop | hop
    · have hfilter : values.filter (holds bq) = values := by
        apply List.filter_eq_self.mpr
        intro v hv
        rw [hholds, if_pos hop]
        exact decide_eq_true (hout hconst v hv)
      rw [hfilter]
      simp only [hop, if_true]
      ring
    · have hfilter : values.filter (holds bq) = [] := by
        apply List.filter_eq_nil_iff.mpr
        intro v hv
        rw [hholds, if_neg (by simp [hop]), decide_eq_true_eq]
        exact hout hconst v hv
      rw [hfilter]
      simp only [hop, reduceCtorEq, if_false, List.length_nil]
      push_cast
      ring

theorem sum_natCast {S : Type*} (f : S → ℕ) (segs : List S) :
    (segs.map fun seg => (f seg : ℤ)).sum = ((segs.map f).sum : ℕ) := by
  induction segs with
  | nil => rfl
  | cons seg segs ih =>
      rw [List.map_cons, List.sum_cons, ih, List.map_cons, List.sum_cons]
      push_cast
      rfl

theorem sum_nat_eq_zero_iff {S : Type*} (f : S → ℕ) (segs : List S) :
    (segs.map f).sum = 0 ↔ ∀ seg ∈ segs, f seg = 0 := by
  induction segs with
  | nil => simp
  | cons seg segs ih => rw [List.map_cons, List.sum_cons, Nat.add_eq_zero_iff, ih, List.forall_mem_cons]

/-- What the zero counts miss is nothing just when no open segment holds a zero. -/
theorem sum_passing_eq_zero_iff {u : IntType} (hqual : QualOver types info bq u)
    (hzero : isZeroConst bq.constDatum bq.typeOid = true) (hop : bq.op = .ne ∨ bq.op = .eq)
    (hsums : ∀ seg ∈ ambiguous, ∃ cs, seg.colSums (info.colName bq.colIdx) = some cs) :
    (ambiguous.map fun seg => passing info bq seg.toSegmentMeta -
        ((seg.qualifying info [bq]).length : ℤ)).sum = 0 ↔
      (bq.constDatum ≠ 0 → ∀ seg ∈ ambiguous, ∀ v ∈ seg.qualInts info bq, v ≠ 0) := by
  have hterms : ambiguous.map (fun seg => passing info bq seg.toSegmentMeta -
        ((seg.qualifying info [bq]).length : ℤ)) =
      ambiguous.map fun seg => if bq.constDatum = 0 then 0
        else (if bq.op = .ne then -1 else 1) *
          (((seg.qualInts info bq).filter fun v => decide (v = 0)).length : ℤ) := by
    apply List.map_congr_left
    intro seg hseg
    obtain ⟨cs, hcs⟩ := hsums seg hseg
    exact passing_eq hqual seg hzero hop hcs
  rw [hterms]
  by_cases hconst : bq.constDatum = 0
  · simp [hconst]
  · simp only [ne_eq, hconst, if_false, not_false_eq_true, forall_const]
    rw [List.sum_map_mul_left, mul_eq_zero]
    have hsign : ¬(if bq.op = .ne then (-1 : ℤ) else 1) = 0 := by
      split <;> decide
    rw [or_iff_right hsign]
    rw [sum_natCast, Nat.cast_eq_zero, sum_nat_eq_zero_iff]
    simp [List.filter_eq_nil_iff]

end zeros

/-! ## Extremes -/

theorem foldl_improve {α : Type*} (better : α → α → Bool) (vs : List α) :
    vs.foldl (improve better) none = fold1 better vs := by
  have hsome : ∀ (vs : List α) (cur : α), vs.foldl (improve better) (some cur) =
      some (vs.foldl (fun cur v => if better v cur then v else cur) cur) := by
    intro vs
    induction vs with
    | nil => intro cur; rfl
    | cons v vs ih => intro cur; exact ih _
  cases vs with
  | nil => rfl
  | cons v vs => exact hsome vs v

/-- Segments without a bound are passed over. -/
theorem foldl_elim_improve {S α : Type*} (better : α → α → Bool) (bnd : S → Option α)
    (segs : List S) (val : Option α) :
    segs.foldl (fun val seg => (bnd seg).elim val (improve better val)) val =
      (segs.filterMap bnd).foldl (improve better) val := by
  induction segs generalizing val with
  | nil => rfl
  | cons seg segs ih =>
      rw [List.foldl_cons, ih, List.filterMap_cons]
      cases bnd seg <;> rfl

section extremes

variable {info : MetadataInfo} {quals : List BatchQual} {nWorkers : ℕ} {spec : AggExecSpec}
  {specs : List MetaSpec} {segments : List (Segment types)}

theorem finalAcc_of_settled (k : AccKind) (allpass : List (Segment types)) :
    finalAcc info quals nWorkers spec k specs allpass [] = takenWhole info spec k allpass := by
  unfold finalAcc
  split
  · rfl
  · unfold filtered
    dsimp only
    split
    · rw [chunks]
      rfl
    · rfl

def Segment.readBound (seg : Segment types) (greater : Bool) (name : Text) : Option ℤ :=
  bound greater ((types name).stored (seg.cells name))

theorem bind_bound {seg : Segment types} {name : Text}
    (havail : (seg.colMinmax name).isSome = true) (greater : Bool) :
    (seg.colMinmax name).bind (bound greater) = seg.readBound greater name := by
  obtain ⟨cm, hcm⟩ := Option.isSome_iff_exists.mp havail
  rw [hcm, Option.bind_some, seg.minmax_eq name cm hcm]
  rfl

theorem readBound_of_empty {seg : Segment types} (h : ¬seg.rowCount > 0) (greater : Bool)
    (name : Text) : seg.readBound greater name = none := by
  have hrows : (seg.cells name) = [] := by
    rw [← List.length_eq_zero_iff, seg.cells_length]
    have hcount := seg.rowCount_eq
    omega
  unfold Segment.readBound
  rw [hrows]
  cases hname : types name with
  | int u => exact (NumType.bound_stored_int rfl _ greater).trans rfl
  | float u => exact (NumType.bound_stored_float rfl _ greater).1.mpr rfl

theorem filterMap_filter_rows {α : Type*} (f : Segment types → Option α)
    (hempty : ∀ seg : Segment types, ¬seg.rowCount > 0 → f seg = none) :
    (segments.filter fun seg => decide (seg.rowCount > 0)).filterMap f = segments.filterMap f := by
  induction segments with
  | nil => rfl
  | cons seg segments ih =>
      rw [List.filter_cons, List.filterMap_cons]
      by_cases hrows : seg.rowCount > 0
      · rw [if_pos (decide_eq_true hrows), List.filterMap_cons, ih]
      · rw [if_neg (by simpa using hrows), ih, hempty seg hrows]

theorem takenWhole_extremeInt (greater : Bool)
    (havail : ∀ seg ∈ segments, (seg.colMinmax (info.colName spec.colIdx)).isSome = true) :
    (takenWhole info spec (.extremeInt greater)
        (segments.filter fun seg => decide (seg.rowCount > 0)) : Option ℤ) =
      fold1 (towards (fun a b => decide (a < b)) greater)
        (segments.filterMap fun seg => seg.readBound greater (info.colName spec.colIdx)) := by
  rw [← foldl_improve, ← filterMap_filter_rows _ fun seg hrows => readBound_of_empty hrows _ _,
    ← foldl_elim_improve]
  apply List.foldl_ext
  intro val seg hseg
  rw [← bind_bound (havail seg (List.mem_of_mem_filter hseg)) greater]
  show accumulateSegmentMetadata info seg.toSegmentMeta spec (.extremeInt greater) val = _
  unfold accumulateSegmentMetadata
  dsimp only
  split <;> rename_i hbound <;> rw [hbound] <;> rfl

theorem takenWhole_extremeFloat (greater : Bool) (u : FloatType)
    (havail : ∀ seg ∈ segments, (seg.colMinmax (info.colName spec.colIdx)).isSome = true) :
    (takenWhole info spec (.extremeFloat greater u)
        (segments.filter fun seg => decide (seg.rowCount > 0)) : Option u.Value) =
      fold1 (towards u.less greater) (segments.filterMap fun seg =>
        (seg.readBound greater (info.colName spec.colIdx)).map u.decode) := by
  rw [← foldl_improve, ← filterMap_filter_rows _ fun seg hrows => by
      rw [readBound_of_empty hrows]; rfl, ← foldl_elim_improve]
  apply List.foldl_ext
  intro val seg hseg
  rw [← bind_bound (havail seg (List.mem_of_mem_filter hseg)) greater]
  show accumulateSegmentMetadata info seg.toSegmentMeta spec (.extremeFloat greater u) val = _
  unfold accumulateSegmentMetadata
  dsimp only
  split <;> rename_i hbound <;> rw [hbound] <;> rfl

/-! ### Integers -/

theorem fold1_readBound_int {u : IntType} (hu : types (info.colName spec.colIdx) = .int u)
    (greater : Bool) (segments : List (Segment types)) :
    fold1 (towards (fun a b => decide (a < b)) greater)
        (segments.filterMap fun seg => seg.readBound greater (info.colName spec.colIdx)) =
      extreme greater (rowResult.values info [] segments spec) := by
  have hbound : ∀ seg : Segment types, seg.readBound greater (info.colName spec.colIdx) =
      extreme greater (seg.intValues info [] (info.colName spec.colIdx)) := by
    intro seg
    rw [Segment.readBound, NumType.bound_stored_int hu, Segment.intValues,
      valuesAt_all (ints_length hu) qualifying_nil]
  have hparts := extreme_parts greater (segments.map fun seg =>
    seg.intValues info [] (info.colName spec.colIdx))
  rw [List.filterMap_map] at hparts
  rw [funext hbound]
  exact hparts

/-! ### Floats -/

/-- Values whose ranks bound those of a column, as far as they compare. -/
structure Bounding (greater : Bool) (u : FloatType) (bounds : List u.Value)
    (ranks : List (WithTop ℤ)) : Prop where
  mem : ∀ b ∈ bounds, rank u.column.format b ∈ ranks
  covers : ∀ r ∈ ranks, ∃ b ∈ bounds, isNan u.column.format b = false → r ≠ ⊤ →
    Bounds greater (rank u.column.format b) r

theorem less_iff (u : FloatType) (a b : u.Value) :
    u.less a b = true ↔ (!isNan u.column.format a) = true ∧ (!isNan u.column.format b) = true ∧
      rank u.column.format a < rank u.column.format b := by
  unfold FloatType.less ieeeHolds
  cases isNan u.column.format a <;> cases isNan u.column.format b <;> simp
  exact Iff.rfl

/-- When the folded bounds are the extreme: no NaN can hide a number, or be hidden by one. -/
def NanHarmless (greater : Bool) (u : FloatType) (bounds : List u.Value) (ranks : List (WithTop ℤ)) :
    Prop :=
  if greater then (∀ r ∈ ranks, r ≠ ⊤) ∨ ∀ b ∈ bounds, isNan u.column.format b = true
  else (∀ r ∈ ranks, r = ⊤) ∨ ∀ b ∈ bounds, isNan u.column.format b = false

theorem fold1_of_nanHarmless {greater : Bool} {u : FloatType} {bounds : List u.Value}
    {ranks : List (WithTop ℤ)} (h : Bounding greater u bounds ranks)
    (hnan : NanHarmless greater u bounds ranks) :
    (fold1 (towards u.less greater) bounds).map (rank u.column.format) = extreme greater ranks := by
  cases bounds with
  | nil =>
      have hranks : ranks = [] := by
        apply List.eq_nil_iff_forall_not_mem.mpr
        intro r hr
        obtain ⟨b, hb, -⟩ := h.covers r hr
        exact List.not_mem_nil hb
      rw [hranks]
      rfl
  | cons b bounds =>
      apply Eq.symm
      cases hb : isNan u.column.format b with
      | true =>
          rw [fold1_cons_of_bad (less_iff u) greater (by rw [hb]; rfl), Option.map_some,
            extreme_eq_some_iff]
          refine ⟨h.mem b List.mem_cons_self, ?_⟩
          rw [(isNan_iff_rank b).mp hb]
          intro r hr
          cases greater with
          | true => exact le_top
          | false =>
              rcases hnan with hall | hnone
              · exact (hall r hr).ge
              · have hnumber := hnone b List.mem_cons_self
                rw [hb] at hnumber
                cases hnumber
      | false =>
          obtain ⟨m, hm, hnumber, hfold, hall⟩ :=
            fold1_cons_of_good (less_iff u) greater (v := b) (by rw [hb]; rfl) bounds
          rw [hfold, Option.map_some, extreme_eq_some_iff]
          refine ⟨h.mem m hm, ?_⟩
          intro r hr
          obtain ⟨w, hw, hbounds⟩ := h.covers r hr
          cases greater with
          | true =>
              rcases hnan with hnone | hall
              · have hwnan : isNan u.column.format w = false := by
                  rw [← Bool.not_eq_true, isNan_iff_rank]
                  exact hnone _ (h.mem w hw)
                exact (hall w hw (by rw [hwnan]; rfl)).trans (hbounds hwnan (hnone r hr))
              · have hbnan := hall b List.mem_cons_self
                rw [hb] at hbnan
                cases hbnan
          | false =>
              by_cases htop : r = ⊤
              · rw [htop]
                exact le_top
              · rcases hnan with hnone | hnumbers
                · exact absurd (hnone r hr) htop
                · have hwnan := hnumbers w hw
                  exact (hall w hw (by rw [hwnan]; rfl)).trans (hbounds hwnan htop)

/-- A first bound on the wrong side of NaN stays, and is the extreme only of its own kind. -/
theorem nan_of_fold1 {greater : Bool} {u : FloatType} {b : u.Value} {bounds : List u.Value}
    {ranks : List (WithTop ℤ)} (hb : isNan u.column.format b = !greater)
    (h : (fold1 (towards u.less greater) (b :: bounds)).map (rank u.column.format) =
      extreme greater ranks) :
    ∀ r ∈ ranks, if greater then r ≠ ⊤ else r = ⊤ := by
  intro r hr
  cases greater with
  | false =>
      rw [fold1_cons_of_bad (less_iff u) false (by rw [hb]; rfl), Option.map_some,
        (isNan_iff_rank b).mp hb] at h
      exact top_le_iff.mp (((extreme_eq_some_iff false ranks ⊤).mp h.symm).2 r hr)
  | true =>
      obtain ⟨m, -, hnumber, hfold, -⟩ :=
        fold1_cons_of_good (less_iff u) true (v := b) (by rw [hb]; rfl) bounds
      rw [hfold, Option.map_some] at h
      have hle : r ≤ rank u.column.format m := ((extreme_eq_some_iff true ranks _).mp h.symm).2 r hr
      have hmtop : rank u.column.format m ≠ ⊤ := by
        rw [ne_eq, ← isNan_iff_rank]
        simpa using hnumber
      exact fun htop => hmtop (top_le_iff.mp (htop ▸ hle))

theorem bounding_readBound {u : FloatType} {name : Text} (hu : types name = .float u)
    (greater : Bool) (segments : List (Segment types)) :
    Bounding greater u
      (segments.filterMap fun seg => (seg.readBound greater name).map u.decode)
      (segments.flatMap fun seg => seg.rankValues info [] name) := by
  have hvalues : ∀ seg : Segment types,
      seg.rankValues info [] name = ((types name).ranks (seg.cells name)).reduceOption := by
    intro seg
    rw [Segment.rankValues]
    apply valuesAt_all _ qualifying_nil
    rw [← seg.cells_length name]
    generalize seg.cells name = cells
    generalize types name = t at hu cells
    subst hu
    exact List.length_map _
  constructor
  · intro b hb
    obtain ⟨seg, hseg, hread⟩ := List.mem_filterMap.mp hb
    obtain ⟨e, he, rfl⟩ := Option.map_eq_some_iff.mp hread
    rw [List.mem_flatMap]
    refine ⟨seg, hseg, ?_⟩
    rw [hvalues]
    exact ((NumType.bound_stored_float hu _ greater).2 e he).1
  · intro r hr
    obtain ⟨seg, hseg, hr⟩ := List.mem_flatMap.mp hr
    rw [hvalues] at hr
    obtain ⟨hnone, hsome⟩ := NumType.bound_stored_float hu (seg.cells name) greater
    cases hread : bound greater ((types name).stored (seg.cells name)) with
    | none =>
        rw [hnone.mp hread] at hr
        cases hr
    | some e =>
        refine ⟨u.decode e, ?_, fun hnan htop => (hsome e hread).2 hnan r hr htop⟩
        rw [List.mem_filterMap]
        exact ⟨seg, hseg, by rw [Segment.readBound, hread]; rfl⟩

end extremes

/-! ## The whole answer -/

/-- The quals and aggregates are over integer columns of the segments; MIN and MAX are over
floats, too. -/
structure Admissible (info : MetadataInfo) (plan : ParsedAggPlan) (quals : List BatchQual)
    (segments : List (Segment types)) : Prop where
  quals : plan.hasWhere = true → QualsOver types info quals
  specs : ∀ spec ∈ plan.aggSpecs, spec.aggType ≠ .countStar →
    SpecOver types info spec.toAggExecSpec
  timeNotNull : ∀ seg ∈ segments, seg.TimeNotNull info

/-- Rows are compared with constants that fit their columns. -/
def Untruncated (info : MetadataInfo) (plan : ParsedAggPlan) (quals : List BatchQual)
    (segments : List (Segment types)) : Prop :=
  plan.hasWhere = true → unsettled info quals segments ≠ [] →
    zeroCounted info plan.aggSpecs quals (unsettled info quals segments) = none →
    ∀ bq ∈ quals, ∀ u, types (info.colName bq.colIdx) = .int u → QualFits u bq

/-- The answer is the one of the rows, in whatever order the segments come. -/
def MetadataExact (info : MetadataInfo) (plan : ParsedAggPlan) (quals : List BatchQual)
    (nWorkers : ℕ) (segments : List (Segment types)) : Prop :=
  ∀ segments' state, segments'.Perm segments →
    tryMetadataFastPath info plan quals nWorkers segments' = some state →
    state.results.map (Option.map observe) =
      plan.aggSpecs.map fun spec => rowResult info (plan.whereQuals quals) segments spec.toAggExecSpec

/-- When an aggregate is answered right.  `COUNT(*)` by zero counts: the constant is zero, or the
segments that are not settled hold no zero.  MIN and MAX: there is nothing to shift, or to be
shifted, and NaN does no harm. -/
def SpecCondition (info : MetadataInfo) (plan : ParsedAggPlan) (quals : List BatchQual)
    (segments : List (Segment types)) (spec : AggExecSpec) : Prop :=
  match spec.aggType with
  | .countStar => plan.hasWhere = true →
      ∀ bq, zeroCounted info plan.aggSpecs quals (unsettled info quals segments) = some bq →
        bq.constDatum ≠ 0 → ∀ seg ∈ unsettled info quals segments, ∀ v ∈ seg.qualInts info bq, v ≠ 0
  | .min => extremeCondition false
  | .max => extremeCondition true
  | _ => True
where
  name : Text := info.colName spec.colIdx
  extremeCondition (greater : Bool) : Prop :=
    match types name with
    | .int _ => (∀ v, spec.outputTransform.apply v = v) ∨
        ∀ seg ∈ segments, seg.intValues info [] name = []
    | .float u => NanHarmless greater u
        (segments.filterMap fun seg => (seg.readBound greater name).map u.decode)
        (segments.flatMap fun seg => seg.rankValues info [] name)

section permutations

variable {info : MetadataInfo} {plan : ParsedAggPlan} {quals wquals : List BatchQual}
  {segments segments' : List (Segment types)} {spec : AggExecSpec}

theorem values_perm (h : segments'.Perm segments) :
    (rowResult.values info wquals segments' spec).Perm (rowResult.values info wquals segments spec) :=
  h.flatMap_right _

theorem rowResult_perm (h : segments'.Perm segments) :
    rowResult info wquals segments' spec = rowResult info wquals segments spec := by
  have hvalues : (rowResult.values info wquals segments' spec).Perm
      (rowResult.values info wquals segments spec) := values_perm h
  have hsum := (hvalues.map fun v => v + addConst spec).sum_eq
  have hnil : rowResult.values info wquals segments' spec = [] ↔
      rowResult.values info wquals segments spec = [] := by
    rw [← List.length_eq_zero_iff, hvalues.length_eq, List.length_eq_zero_iff]
  have hextreme : ∀ greater, rowResult.extremeResult info wquals segments' spec greater =
      rowResult.extremeResult info wquals segments spec greater := by
    intro greater
    unfold rowResult.extremeResult
    split
    · rw [extreme_perm greater hvalues]
    · rw [extreme_perm greater (h.flatMap_right _)]
  unfold rowResult
  cases spec.aggType with
  | countStar =>
      dsimp only
      rw [(h.map _).sum_eq]
  | count => simp only [hvalues.length_eq]
  | sum => simp only [hnil, hsum]
  | avg => simp only [hnil, hsum, hvalues.length_eq]
  | min => exact hextreme false
  | max => exact hextreme true
  | countDistinct => rfl

theorem unsettled_perm (h : segments'.Perm segments) :
    (unsettled info quals segments').Perm (unsettled info quals segments) := h.filter _

theorem zeroCounted_perm {specs : List MetaSpec} {ambiguous ambiguous' : List (Segment types)}
    (h : ambiguous'.Perm ambiguous) :
    zeroCounted info specs quals ambiguous' = zeroCounted info specs quals ambiguous := by
  unfold zeroCounted
  split
  · have hall : ∀ p : Segment types → Bool, ambiguous'.all p = ambiguous.all p := by
      intro p
      rw [Bool.eq_iff_iff, List.all_eq_true, List.all_eq_true]
      simp only [h.mem_iff]
    rw [hall]
  · rfl

theorem nanHarmless_perm {greater : Bool} {u : FloatType} {bounds bounds' : List u.Value}
    {ranks ranks' : List (WithTop ℤ)} (hbounds : bounds'.Perm bounds) (hranks : ranks'.Perm ranks) :
    NanHarmless greater u bounds' ranks' ↔ NanHarmless greater u bounds ranks := by
  unfold NanHarmless
  simp only [hbounds.mem_iff, hranks.mem_iff]

theorem specCondition_perm (h : segments'.Perm segments) :
    SpecCondition info plan quals segments' spec ↔ SpecCondition info plan quals segments spec := by
  have hextreme : ∀ greater, SpecCondition.extremeCondition info segments' spec greater ↔
      SpecCondition.extremeCondition info segments spec greater := by
    intro greater
    unfold SpecCondition.extremeCondition
    split
    · simp only [h.mem_iff]
    · exact nanHarmless_perm (h.filterMap _) (h.flatMap_right _)
  unfold SpecCondition
  cases spec.aggType with
  | countStar =>
      have hunsettled : (unsettled info quals segments').Perm (unsettled info quals segments) :=
        unsettled_perm h
      dsimp only
      simp only [zeroCounted_perm hunsettled, hunsettled.mem_iff]
  | min => exact hextreme false
  | max => exact hextreme true
  | count | sum | avg | countDistinct => exact Iff.rfl

end permutations

section exact

variable {info : MetadataInfo} {plan : ParsedAggPlan} {quals : List BatchQual} {nWorkers : ℕ}
  {segments allpass ambiguous : List (Segment types)} {spec : AggExecSpec} {k : AccKind}

def answerOf (info : MetadataInfo) (plan : ParsedAggPlan) (quals : List BatchQual) (nWorkers : ℕ)
    (allpass ambiguous : List (Segment types)) (spec : AggExecSpec) (k : AccKind) : Option Answer :=
  (finalizeAccumulator spec k
    (finalAcc info quals nWorkers spec k plan.aggSpecs allpass ambiguous)).map observe

theorem whereQuals_of_where (h : plan.hasWhere = true) : plan.whereQuals quals = quals := if_pos h

theorem whereQuals_of_no_where (h : plan.hasWhere = false) : plan.whereQuals quals = [] := by
  rw [ParsedAggPlan.whereQuals, h]
  rfl

theorem classified (hadm : Admissible info plan quals segments)
    (hpre : preClassify info (plan.whereQuals quals) segments = some (allpass, ambiguous)) :
    Classified info (plan.whereQuals quals) segments allpass ambiguous := by
  apply preClassify_spec _ hadm.timeNotNull hpre
  cases hwhere : plan.hasWhere with
  | true => rw [whereQuals_of_where hwhere]; exact hadm.quals hwhere
  | false =>
      rw [whereQuals_of_no_where hwhere]
      exact fun _ hbq => absurd hbq List.not_mem_nil

/-- Without a WHERE clause nothing is left open. -/
theorem ambiguous_of_no_where (hwhere : plan.hasWhere = false)
    (hpre : preClassify info (plan.whereQuals quals) segments = some (allpass, ambiguous)) :
    allpass = (segments.filter fun seg => decide (seg.rowCount > 0)) ∧ ambiguous = [] := by
  rw [whereQuals_of_no_where hwhere, preClassify_nil, Option.some.injEq, Prod.mk.injEq] at hpre
  exact ⟨hpre.1.symm, hpre.2.symm⟩

theorem filtered_of_untruncated (hadm : Admissible info plan quals segments)
    (hfits : Untruncated info plan quals segments)
    (hpre : preClassify info (plan.whereQuals quals) segments = some (allpass, ambiguous))
    (hzero : zeroCounted info plan.aggSpecs quals ambiguous = none) :
    Filtered info quals (plan.whereQuals quals) ambiguous := by
  intro seg hseg
  cases hwhere : plan.hasWhere with
  | false =>
      rw [(ambiguous_of_no_where hwhere hpre).2] at hseg
      cases hseg
  | true =>
      have hopen := (classified hadm hpre).unsettled_eq
      rw [whereQuals_of_where hwhere] at hopen ⊢
      rw [hopen] at hzero hseg
      exact ⟨rfl, selection_eq (hadm.quals hwhere)
        (hfits hwhere (List.ne_nil_of_mem hseg) hzero)⟩

theorem kind_of_extreme {greater : Bool}
    (hagg : spec.aggType = if greater then .max else .min)
    (hkind : newFor spec.aggType spec.colTypeOid = some k)
    (hoid : spec.colTypeOid = (types (info.colName spec.colIdx)).typeOid) :
    (∃ u, types (info.colName spec.colIdx) = .int u ∧ k = .extremeInt greater) ∨
      ∃ u, types (info.colName spec.colIdx) = .float u ∧ k = .extremeFloat greater u := by
  rw [hoid] at hkind
  cases htype : types (info.colName spec.colIdx) with
  | int u =>
      refine Or.inl ⟨u, rfl, ?_⟩
      rw [htype] at hkind
      cases greater <;> cases u <;> rw [hagg] at hkind <;> exact (Option.some.inj hkind).symm
  | float u =>
      refine Or.inr ⟨u, rfl, ?_⟩
      rw [htype] at hkind
      cases greater <;> cases u <;> rw [hagg] at hkind <;> exact (Option.some.inj hkind).symm

/-- `COUNT(*)` is right under its condition only. -/
theorem answerOf_countStar (hadm : Admissible info plan quals segments)
    (hfits : Untruncated info plan quals segments) (hagg : spec.aggType = .countStar)
    (hpre : preClassify info (plan.whereQuals quals) segments = some (allpass, ambiguous)) :
    answerOf info plan quals nWorkers allpass ambiguous spec .count =
        rowResult info (plan.whereQuals quals) segments spec ↔
      SpecCondition info plan quals segments spec := by
  have hclass := classified hadm hpre
  have hkind : newFor spec.aggType spec.colTypeOid = some .count := by simp [newFor, hagg]
  have hrows : rowResult info (plan.whereQuals quals) segments spec =
      some (.inl (.word ((segments.map fun seg =>
        (addition info (plan.whereQuals quals) spec seg .count : ℤ)).sum))) := by
    simp only [rowResult, addition, hagg]
  have hanswer : answerOf info plan quals nWorkers allpass ambiguous spec .count =
      some (.inl (.word (finalAcc info quals nWorkers spec .count plan.aggSpecs allpass ambiguous :
        ℤ))) := rfl
  rw [hrows, hanswer, Option.some.injEq, Sum.inl.injEq, SqlValue.word.injEq]
  simp only [SpecCondition, hagg]
  cases hzero : zeroCounted info plan.aggSpecs quals ambiguous with
  | none =>
      rw [finalAcc_count hkind (by simp [hagg]) (by simp [available, hagg]) hclass hzero
        (filtered_of_untruncated hadm hfits hpre hzero)]
      refine iff_of_true rfl ?_
      intro hwhere bq hsome
      have hopen := hclass.unsettled_eq
      rw [whereQuals_of_where hwhere] at hopen
      rw [← hopen, hzero] at hsome
      cases hsome
  | some bq =>
      rw [finalAcc_zeroCounted hagg hclass hzero, add_eq_left]
      obtain ⟨hquals, -, hconst, hop, hsums⟩ := zeroCounted_spec hzero
      cases hwhere : plan.hasWhere with
      | false =>
          rw [(ambiguous_of_no_where hwhere hpre).2]
          simp
      | true =>
          have hopen := hclass.unsettled_eq
          rw [whereQuals_of_where hwhere] at hopen ⊢
          obtain ⟨u, hqual⟩ := hadm.quals hwhere bq (by rw [hquals]; exact List.mem_singleton_self bq)
          have hiff := sum_passing_eq_zero_iff hqual hconst hop hsums
          rw [← hquals] at hiff
          rw [hiff, ← hopen, hzero]
          simp only [Option.some.injEq, forall_eq', forall_const]

/-- Other counts and sums are right. -/
theorem answerOf_additive (hadm : Admissible info plan quals segments)
    (hfits : Untruncated info plan quals segments) (hspec : SpecOver types info spec)
    (hmem : ∃ s ∈ plan.aggSpecs, s.aggType = spec.aggType)
    (hagg : spec.aggType = .count ∨ spec.aggType = .sum ∨ spec.aggType = .avg)
    (hkind : newFor spec.aggType spec.colTypeOid = some k)
    (havail : ∀ seg ∈ segments, available info spec seg.toSegmentMeta = true)
    (hpre : preClassify info (plan.whereQuals quals) segments = some (allpass, ambiguous)) :
    answerOf info plan quals nWorkers allpass ambiguous spec k =
      rowResult info (plan.whereQuals quals) segments spec := by
  have hclass := classified hadm hpre
  have hzero : zeroCounted info plan.aggSpecs quals ambiguous = none := by
    cases hzero : zeroCounted info plan.aggSpecs quals ambiguous with
    | none => rfl
    | some bq =>
        obtain ⟨s, hs, hsagg⟩ := hmem
        have hstar := (zeroCounted_spec hzero).2.1 s hs
        rw [hsagg] at hstar
        rw [hstar] at hagg
        rcases hagg with hagg | hagg | hagg <;> cases hagg
  have hfiltered := filtered_of_untruncated hadm hfits hpre hzero
  rcases hagg with hagg | hagg
  · have hcount : k = .count := by
      rw [hagg] at hkind
      exact (Option.some.inj hkind).symm
    subst hcount
    have hacc : (finalAcc info quals nWorkers spec .count plan.aggSpecs allpass ambiguous : ℤ) = _ :=
      finalAcc_count hkind (fun _ => hspec) havail hclass hzero hfiltered
    rw [sum_addition_count hagg] at hacc
    have hanswer : answerOf info plan quals nWorkers allpass ambiguous spec .count =
        some (.inl (.word (finalAcc info quals nWorkers spec .count plan.aggSpecs allpass ambiguous :
          ℤ))) := rfl
    rw [hanswer, hacc]
    simp only [rowResult, hagg]
  · have hsum : k = .sumInt := by
      rcases hagg with hagg | hagg <;> rw [hagg] at hkind <;> unfold newFor at hkind <;>
        dsimp only at hkind <;> split at hkind <;>
        first | exact (Option.some.inj hkind).symm | cases hkind
    subst hsum
    exact finalize_sumInt hagg (finalAcc_sumInt hkind hspec havail hclass hzero hfiltered)

theorem available_extreme {greater : Bool} (hagg : spec.aggType = if greater then .max else .min)
    (havail : ∀ seg ∈ segments, available info spec seg.toSegmentMeta = true) :
    ∀ seg ∈ segments, (seg.colMinmax (info.colName spec.colIdx)).isSome = true := by
  intro seg hseg
  have h := havail seg hseg
  unfold available at h
  rw [hagg] at h
  cases greater <;> exact h

theorem rowResult_extreme {greater : Bool} (hagg : spec.aggType = if greater then .max else .min)
    (wquals : List BatchQual) :
    rowResult info wquals segments spec = rowResult.extremeResult info wquals segments spec greater := by
  cases greater <;> simp only [rowResult, hagg, if_true, Bool.false_eq_true, if_false]

theorem specCondition_extreme {greater : Bool}
    (hagg : spec.aggType = if greater then .max else .min) :
    SpecCondition info plan quals segments spec ↔
      SpecCondition.extremeCondition info segments spec greater := by
  cases greater <;> simp only [SpecCondition, hagg, if_true, Bool.false_eq_true, if_false]

/-- MIN and MAX of integers are right when there is nothing to shift, or to be shifted. -/
theorem answerOf_extremeInt {greater : Bool} (hagg : spec.aggType = if greater then .max else .min)
    (hwhere : plan.hasWhere = false) {u : IntType}
    (hu : types (info.colName spec.colIdx) = .int u)
    (havail : ∀ seg ∈ segments, available info spec seg.toSegmentMeta = true)
    (hpre : preClassify info (plan.whereQuals quals) segments = some (allpass, ambiguous)) :
    answerOf info plan quals nWorkers allpass ambiguous spec (.extremeInt greater) =
        rowResult info (plan.whereQuals quals) segments spec ↔
      SpecCondition info plan quals segments spec := by
  obtain ⟨rfl, rfl⟩ := ambiguous_of_no_where hwhere hpre
  have hfinal : (finalAcc info quals nWorkers spec (.extremeInt greater) plan.aggSpecs
      (segments.filter fun seg => decide (seg.rowCount > 0)) [] : Option ℤ) =
        extreme greater (rowResult.values info [] segments spec) := by
    rw [finalAcc_of_settled, takenWhole_extremeInt greater (available_extreme hagg havail),
      fold1_readBound_int hu]
  have hanswer : answerOf info plan quals nWorkers
      (segments.filter fun seg => decide (seg.rowCount > 0)) [] spec (.extremeInt greater) =
        (extreme greater (rowResult.values info [] segments spec)).map fun m =>
          .inl (.word m) := by
    rw [← hfinal]
    unfold answerOf finalizeAccumulator
    dsimp only
    rw [Option.map_map]
    rfl
  have hnil : (∀ seg ∈ segments, seg.intValues info [] (info.colName spec.colIdx) = []) ↔
      rowResult.values info [] segments spec = [] := List.flatMap_eq_nil_iff.symm
  rw [whereQuals_of_no_where hwhere, hanswer, rowResult_extreme hagg, specCondition_extreme hagg]
  unfold rowResult.extremeResult SpecCondition.extremeCondition rowResult.name SpecCondition.name
  simp only [hu, hnil]
  cases hextreme : extreme greater (rowResult.values info [] segments spec) with
  | none => simp [(extreme_eq_none_iff greater _).mp hextreme]
  | some m =>
      have hvalues : rowResult.values info [] segments spec ≠ [] := by
        rw [ne_eq, ← extreme_eq_none_iff greater, hextreme]
        simp
      rw [Option.map_some, Option.map_some, Option.some.injEq, Sum.inl.injEq, SqlValue.word.injEq,
        or_iff_left hvalues]
      cases spec.outputTransform with
      | none => simp [OutputTransform.apply]
      | pgUsShift delta => simp [OutputTransform.apply]

theorem answerOf_extremeFloat {greater : Bool}
    (hagg : spec.aggType = if greater then .max else .min) (hwhere : plan.hasWhere = false)
    {u : FloatType} (hu : types (info.colName spec.colIdx) = .float u)
    (havail : ∀ seg ∈ segments, available info spec seg.toSegmentMeta = true)
    (hpre : preClassify info (plan.whereQuals quals) segments = some (allpass, ambiguous)) :
    answerOf info plan quals nWorkers allpass ambiguous spec (.extremeFloat greater u) =
        rowResult info (plan.whereQuals quals) segments spec ↔
      (fold1 (towards u.less greater) (segments.filterMap fun seg =>
        (seg.readBound greater (info.colName spec.colIdx)).map u.decode)).map
          (rank u.column.format) =
        extreme greater (segments.flatMap fun seg =>
          seg.rankValues info [] (info.colName spec.colIdx)) := by
  obtain ⟨rfl, rfl⟩ := ambiguous_of_no_where hwhere hpre
  have hfinal : (finalAcc info quals nWorkers spec (.extremeFloat greater u) plan.aggSpecs
      (segments.filter fun seg => decide (seg.rowCount > 0)) [] : Option u.Value) = _ :=
    (finalAcc_of_settled _ _).trans
      (takenWhole_extremeFloat greater u (available_extreme hagg havail))
  have hanswer : answerOf info plan quals nWorkers
      (segments.filter fun seg => decide (seg.rowCount > 0)) [] spec (.extremeFloat greater u) =
        ((fold1 (towards u.less greater) (segments.filterMap fun seg =>
          (seg.readBound greater (info.colName spec.colIdx)).map u.decode)).map
            (rank u.column.format)).map .inr := by
    rw [← hfinal]
    unfold answerOf finalizeAccumulator
    dsimp only
    rw [Option.map_map, Option.map_map]
    rfl
  rw [whereQuals_of_no_where hwhere, hanswer, rowResult_extreme hagg]
  unfold rowResult.extremeResult rowResult.name
  simp only [hu]
  exact (Option.map_injective Sum.inr_injective).eq_iff

theorem aggType_cases (hkind : newFor spec.aggType spec.colTypeOid = some k) :
    spec.aggType = .countStar ∨
      (spec.aggType = .count ∨ spec.aggType = .sum ∨ spec.aggType = .avg) ∨
      ∃ greater : Bool, spec.aggType = if greater then .max else .min := by
  cases hagg : spec.aggType with
  | countStar => exact Or.inl rfl
  | count => exact Or.inr (Or.inl (Or.inl rfl))
  | sum => exact Or.inr (Or.inl (Or.inr (Or.inl rfl)))
  | avg => exact Or.inr (Or.inl (Or.inr (Or.inr rfl)))
  | min => exact Or.inr (Or.inr ⟨false, rfl⟩)
  | max => exact Or.inr (Or.inr ⟨true, rfl⟩)
  | countDistinct =>
      rw [hagg] at hkind
      cases hkind

theorem no_where_of_extreme {greater : Bool}
    (hagg : spec.aggType = if greater then .max else .min)
    (hresolved : resolvable plan.hasWhere spec = true) : plan.hasWhere = false := by
  cases greater <;> simp only [resolvable, hagg, if_true, Bool.false_eq_true, if_false,
    Bool.and_eq_true, Bool.not_eq_true'] at hresolved <;> exact hresolved.1.1

theorem answerOf_of_condition (hadm : Admissible info plan quals segments)
    (hfits : Untruncated info plan quals segments) {s : MetaSpec} (hs : s ∈ plan.aggSpecs)
    (hanswerable : Answerable info plan quals segments)
    (hpre : preClassify info (plan.whereQuals quals) segments = some (allpass, ambiguous))
    (hcond : SpecCondition info plan quals segments s.toAggExecSpec) :
    answerOf info plan quals nWorkers allpass ambiguous s.toAggExecSpec s.kind =
      rowResult info (plan.whereQuals quals) segments s.toAggExecSpec := by
  have havail := hanswerable.loaded s hs
  have hspec := hadm.specs s hs
  rcases aggType_cases s.kind_eq with hagg | hagg | ⟨greater, hagg⟩
  · have hkind := s.kind_eq
    rw [hagg] at hkind
    rw [← Option.some.inj hkind]
    exact (answerOf_countStar hadm hfits hagg hpre).mpr hcond
  · have hne : s.aggType ≠ .countStar := by
      rcases hagg with hagg | hagg | hagg <;> rw [hagg] <;> decide
    exact answerOf_additive hadm hfits (hspec hne) ⟨s, hs, rfl⟩ hagg s.kind_eq havail hpre
  · have hne : s.aggType ≠ .countStar := by
      rw [hagg]
      cases greater <;> decide
    have hwhere := no_where_of_extreme hagg (hanswerable.resolved s hs)
    rcases kind_of_extreme hagg s.kind_eq (hspec hne).typeOid_eq with ⟨u, hu, hk⟩ | ⟨u, hu, hk⟩
    · rw [hk]
      exact (answerOf_extremeInt hagg hwhere hu havail hpre).mpr hcond
    · rw [hk, answerOf_extremeFloat hagg hwhere hu havail hpre]
      rw [specCondition_extreme hagg] at hcond
      unfold SpecCondition.extremeCondition SpecCondition.name at hcond
      simp only [hu] at hcond
      exact fold1_of_nanHarmless (bounding_readBound hu greater segments) hcond

/-- A first segment whose bound is on the wrong side of NaN shows that NaN does harm. -/
theorem nanHarmless_of_first {greater : Bool} {u : FloatType} {name : Text}
    (h : ∀ segments' : List (Segment types), segments'.Perm segments →
      (fold1 (towards u.less greater) (segments'.filterMap fun seg =>
        (seg.readBound greater name).map u.decode)).map (rank u.column.format) =
      extreme greater (segments'.flatMap fun seg => seg.rankValues info [] name)) :
    NanHarmless greater u
      (segments.filterMap fun seg => (seg.readBound greater name).map u.decode)
      (segments.flatMap fun seg => seg.rankValues info [] name) := by
  -- Either all bounds are on the right side, or one that is not can come first.
  have hcases : (∀ b ∈ segments.filterMap fun seg => (seg.readBound greater name).map u.decode,
        isNan u.column.format b = greater) ∨
      ∀ r ∈ segments.flatMap fun seg => seg.rankValues info [] name,
        if greater then r ≠ ⊤ else r = ⊤ := by
    by_contra hneither
    rw [not_or, not_forall] at hneither
    obtain ⟨⟨b, hb⟩, hranks⟩ := hneither
    rw [Classical.not_imp] at hb
    obtain ⟨hb, hside⟩ := hb
    obtain ⟨seg, hseg, hread⟩ := List.mem_filterMap.mp hb
    obtain ⟨before, after, rfl⟩ := List.append_of_mem hseg
    have hperm : (seg :: (before ++ after)).Perm (before ++ seg :: after) := List.perm_middle.symm
    have hfirst := h _ hperm
    rw [List.filterMap_cons, hread] at hfirst
    apply hranks
    intro r hr
    apply nan_of_fold1 (by cases hnan : isNan u.column.format b <;> cases greater <;> simp_all) hfirst
    exact (hperm.flatMap_right _).mem_iff.mpr hr
  unfold NanHarmless
  cases greater with
  | true => exact hcases.symm
  | false => exact hcases.symm

/-- The metadata path answers for the rows, whatever the order of the segments, exactly when each
aggregate meets its condition: a COUNT by zero counts has a zero constant or no zeros to miss, a
MIN or MAX has nothing to shift, and no NaN hides a number or is hidden by one. -/
theorem tryMetadataFastPath_exact_iff (info : MetadataInfo) (plan : ParsedAggPlan)
    (quals : List BatchQual) (nWorkers : ℕ) (segments : List (Segment types))
    (hadm : Admissible info plan quals segments) (hfits : Untruncated info plan quals segments)
    (hanswer : (tryMetadataFastPath info plan quals nWorkers segments).isSome = true) :
    MetadataExact info plan quals nWorkers segments ↔
      ∀ spec ∈ plan.aggSpecs, SpecCondition info plan quals segments spec.toAggExecSpec := by
  constructor
  · intro hexact s hs
    -- What an answer for some order says of this aggregate.
    have hresult : ∀ segments' state, segments'.Perm segments →
        tryMetadataFastPath info plan quals nWorkers segments' = some state →
        ∃ allpass ambiguous, preClassify info (plan.whereQuals quals) segments' =
            some (allpass, ambiguous) ∧
          answerOf info plan quals nWorkers allpass ambiguous s.toAggExecSpec s.kind =
            rowResult info (plan.whereQuals quals) segments' s.toAggExecSpec := by
      intro segments' state hperm hstate
      obtain ⟨allpass, ambiguous, hpre, hresults⟩ := results_of_answer hstate
      have hmaps := hexact segments' state hperm hstate
      rw [hresults, List.map_map, List.map_inj_left] at hmaps
      refine ⟨allpass, ambiguous, hpre, ?_⟩
      rw [rowResult_perm hperm]
      exact hmaps s hs
    obtain ⟨state, hstate⟩ := Option.isSome_iff_exists.mp hanswer
    obtain ⟨allpass, ambiguous, hpre, hright⟩ := hresult segments state (List.Perm.refl _) hstate
    have hanswerable := answerable_of_answer hanswer
    have havail := hanswerable.loaded s hs
    rcases aggType_cases s.kind_eq with hagg | hagg | ⟨greater, hagg⟩
    · have hkind := s.kind_eq
      rw [hagg] at hkind
      rw [← Option.some.inj hkind] at hright
      exact (answerOf_countStar hadm hfits hagg hpre).mp hright
    · unfold SpecCondition
      rcases hagg with hagg | hagg | hagg <;> rw [hagg] <;> trivial
    · have hne : s.aggType ≠ .countStar := by
        rw [hagg]
        cases greater <;> decide
      have hwhere := no_where_of_extreme hagg (hanswerable.resolved s hs)
      rcases kind_of_extreme hagg s.kind_eq (hadm.specs s hs hne).typeOid_eq with
        ⟨u, hu, hk⟩ | ⟨u, hu, hk⟩
      · rw [hk] at hright
        exact (answerOf_extremeInt hagg hwhere hu havail hpre).mp hright
      · rw [specCondition_extreme hagg]
        unfold SpecCondition.extremeCondition SpecCondition.name
        simp only [hu]
        apply nanHarmless_of_first
        intro segments' hperm
        obtain ⟨state', hstate'⟩ := exists_answer_of_perm hwhere hanswer hperm
        obtain ⟨allpass', ambiguous', hpre', hright'⟩ := hresult segments' state' hperm hstate'
        rw [hk] at hright'
        exact (answerOf_extremeFloat hagg hwhere hu
          (fun seg hseg => havail seg (hperm.mem_iff.mp hseg)) hpre').mp hright'
  · intro hcond segments' state hperm hstate
    obtain ⟨allpass, ambiguous, hpre, hresults⟩ := results_of_answer hstate
    have hadm' : Admissible info plan quals segments' :=
      ⟨hadm.quals, hadm.specs, fun seg hseg => hadm.timeNotNull seg (hperm.mem_iff.mp hseg)⟩
    have hunsettled : (unsettled info quals segments').Perm (unsettled info quals segments) :=
      unsettled_perm hperm
    have hfits' : Untruncated info plan quals segments' := by
      intro hwhere hopen hzero
      rw [zeroCounted_perm hunsettled] at hzero
      exact hfits hwhere (fun hnil => hopen (List.perm_nil.mp (hnil ▸ hunsettled))) hzero
    have hanswerable := answerable_of_answer (by rw [hstate]; rfl : (tryMetadataFastPath info plan
      quals nWorkers segments').isSome = true)
    rw [hresults, List.map_map]
    apply List.map_congr_left
    intro s hs
    rw [← rowResult_perm hperm]
    exact answerOf_of_condition hadm' hfits' hs hanswerable hpre
      ((specCondition_perm hperm).mpr (hcond s hs))

end exact

/-! ## Examples -/

def plainSpec (aggType : AggType) (colTypeOid : TypeOid) (kind : AccKind)
    (h : newFor aggType colTypeOid = some kind) : MetaSpec where
  aggType := aggType
  colIdx := 0
  colTypeOid := colTypeOid
  exprKind := .column
  constOffset := 0
  outputTransform := .none
  kind := kind
  kind_eq := h

/-- One column `v`. -/
def sampleInfo : MetadataInfo := ⟨[['v']], ['t'], []⟩

def floatSegment (cells : List (Option (Pattern binary64))) :
    Segment fun _ => .float .float8 where
  rowCount := cells.length
  colMinmax := fun _ => some (NumType.stored (.float .float8) cells)
  colSums := fun _ => none
  sumI128 := fun _ => none
  blobsLoaded := false
  rows := cells.length
  cells := fun _ => cells
  cells_length := fun _ => rfl
  rowCount_eq := rfl
  minmax_eq := fun _ _ h => (Option.some.inj h).symm
  sums_eq := fun _ _ h => by cases h
  sumI128_eq := fun _ h => by cases h

/-- `MAX(v)`. -/
def maxPlan : ParsedAggPlan :=
  ⟨false, false, false, [plainSpec .max .float8 (.extremeFloat true .float8) rfl]⟩

def nanSegments : List (Segment fun _ => .float .float8) :=
  [floatSegment [some 0x3FF0000000000000], floatSegment [some 0x7FF8000000000000]]

theorem not_forall_metadataExact :
    ¬∀ (types : Text → NumType) (info : MetadataInfo) (plan : ParsedAggPlan)
      (quals : List BatchQual) (nWorkers : ℕ) (segments : List (Segment types)),
      Admissible info plan quals segments →
      (tryMetadataFastPath info plan quals nWorkers segments).isSome = true →
      MetadataExact info plan quals nWorkers segments := by
  intro hall
  have hadm : Admissible sampleInfo maxPlan [] nanSegments := by
    refine ⟨(fun h => by cases h), ?_, ?_⟩
    · intro spec hspec _
      rw [List.mem_singleton.mp hspec]
      exact ⟨List.not_mem_nil, rfl, fun _ _ => rfl, fun h => by cases h⟩
    · intro seg hseg
      rcases List.mem_pair.mp hseg with rfl | rfl <;> intro cell hcell <;>
        exact List.mem_singleton.mp hcell ▸ rfl
  have hexact := hall _ sampleInfo maxPlan [] 1 nanSegments hadm (by decide)
  have hresult := hexact nanSegments _ (List.Perm.refl _)
    (Option.some_get (by decide : (tryMetadataFastPath sampleInfo maxPlan [] 1 nanSegments).isSome =
      true)).symm
  revert hresult
  decide

/-- The columns of a segment: `v`, and the time column. -/
def intCells (cells : List (Option (BitVec 32))) (name : Text) : List (Option (BitVec 32)) :=
  if name = ['t'] then cells.map fun _ => some 0 else cells

/-- A segment of integer columns, with its metadata and its blobs loaded. -/
def intSegment (cells : List (Option (BitVec 32))) : Segment fun _ => .int .int4 where
  rowCount := cells.length
  colMinmax := fun name => some (NumType.stored (.int .int4) (intCells cells name))
  colSums := fun name => some ⟨(computeTypedSum (.int32 (intCells cells name))).1,
    (computeTypedSum (.int32 (intCells cells name))).2⟩
  sumI128 := fun name => typedSum (.int32 (intCells cells name))
  blobsLoaded := true
  rows := cells.length
  cells := intCells cells
  cells_length := by
    intro name
    unfold intCells
    split
    · exact List.length_map _
    · rfl
  rowCount_eq := rfl
  minmax_eq := fun _ _ h => (Option.some.inj h).symm
  sums_eq := fun _ _ h => (Option.some.inj h).symm
  sumI128_eq := fun _ _ => rfl

/-- `SELECT sum(v), count(v) WHERE v > 5`. -/
def sumPlan : ParsedAggPlan :=
  ⟨false, false, true, [plainSpec .sum .int4 .sumInt rfl, plainSpec .count .int4 .count rfl]⟩

def sumQuals : List BatchQual := [⟨0, .gt, 5, .int4, none, none⟩]

/-- A segment that is taken whole, one that is filtered and one that is skipped. -/
def sumSegments : List (Segment fun _ => .int .int4) :=
  [intSegment [some 9, some 6], intSegment [some 5, none, some 7], intSegment [some 1]]

theorem intSegment_timeNotNull (cells : List (Option (BitVec 32))) :
    (intSegment cells).TimeNotNull sampleInfo := by
  intro cell hcell
  have htime : (intSegment cells).cells sampleInfo.timeColumn = cells.map fun _ => some 0 := by
    show intCells cells ['t'] = _
    rw [intCells, if_pos rfl]
    rfl
  rw [htime, List.mem_map] at hcell
  obtain ⟨_, _, hzero⟩ := hcell
  rw [← hzero]
  rfl

theorem tryMetadataFastPath_exact_sum :
    MetadataExact sampleInfo sumPlan sumQuals 1 sumSegments ∧
      (sumPlan.aggSpecs.map fun spec =>
        rowResult sampleInfo sumQuals sumSegments spec.toAggExecSpec) =
          [some (.inl (.word 22)), some (.inl (.word 3))] := by
  have hqual : ∀ bq ∈ sumQuals, QualOver (fun _ => .int .int4) sampleInfo bq .int4 := by
    intro bq hbq
    rw [List.mem_singleton.mp hbq]
    exact ⟨by decide, List.not_mem_nil, rfl, rfl, fun h => by cases h⟩
  have hadm : Admissible sampleInfo sumPlan sumQuals sumSegments := by
    refine ⟨fun _ bq hbq => ⟨.int4, hqual bq hbq⟩, ?_, ?_⟩
    · intro spec hspec _
      have hfields : spec.colTypeOid = .int4 := by
        rcases List.mem_pair.mp hspec with rfl | rfl <;> rfl
      exact ⟨List.not_mem_nil, hfields, (fun _ h => by cases h), fun _ => ⟨.int4, rfl⟩⟩
    · intro seg hseg
      simp only [sumSegments, List.mem_cons, List.not_mem_nil, or_false] at hseg
      rcases hseg with rfl | rfl | rfl <;> exact intSegment_timeNotNull _
  have hfits : Untruncated sampleInfo sumPlan sumQuals sumSegments := by
    intro _ _ _ bq hbq u hu
    cases hu
    rw [List.mem_singleton.mp hbq]
    show ((5 : Datum).setWidth 32).toInt = (5 : Datum).toInt
    decide
  refine ⟨?_, by decide⟩
  apply (tryMetadataFastPath_exact_iff sampleInfo sumPlan sumQuals 1 sumSegments hadm hfits
    (by decide)).mpr
  intro spec hspec
  rcases List.mem_pair.mp hspec with rfl | rfl <;> trivial

end DeltaX.Agg.MetadataFastPath
