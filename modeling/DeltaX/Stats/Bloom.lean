import DeltaX.Stats.Encoding
import DeltaX.Support.ByteBits
/-!
# Per-segment bloom filters

The compressor hashes the stored representation of every value into a bloom
filter; a scan hashes the constants of an equality qual, brought into the same
domain, and skips the segment when none of them can be in it.  Both sides
canonicalise on their own.  The hash is an arbitrary function of its `i64`
argument throughout.
-/

namespace DeltaX.Stats.Bloom

open Column Encoding Support.IeeeOrder Support.ByteBits

/-! ## The filter -/

/-- `bloom_size_for_ndistinct`: ten bits an element, clamped, in bytes.  The
multiplication saturates at the top of `usize`. -/
def bloomSizeForNdistinct (ndistinct : ℕ) : ℕ :=
  max 64 (min 8192 ((min (ndistinct * 10) (2 ^ 64 - 1) + 7) / 8))

/-- `optimal_k`; `rounded` stands for the floating-point quotient, rounded to a
byte. -/
def optimalK (rounded : ℕ → ℕ → ℕ) (numBits ndistinct : ℕ) : ℕ :=
  if ndistinct = 0 then 1 else max 1 (min 10 (rounded numBits ndistinct))

structure BloomFilter where
  bits : Bytes
  numHashes : ℕ
deriving DecidableEq, Repr

namespace BloomFilter

/-- `BloomFilter::for_ndistinct`. -/
def forNdistinct (rounded : ℕ → ℕ → ℕ) (ndistinct : ℕ) : BloomFilter where
  bits := List.replicate (bloomSizeForNdistinct ndistinct) 0#8
  numHashes := optimalK rounded (bloomSizeForNdistinct ndistinct * 8) ndistinct

/-- `BloomFilter::from_bytes`. -/
def fromBytes (data : Bytes) (numHashes : ℕ) : BloomFilter := ⟨data, numHashes⟩

/-- `bit_positions`: double hashing in `u32`, reduced to the size of the filter. -/
def bitPositions (bf : BloomFilter) (hash : BitVec 64) : List ℕ :=
  let h1 : BitVec 32 := (hash >>> 32).setWidth 32
  let h2 : BitVec 32 := hash.setWidth 32
  (List.range bf.numHashes).map fun i =>
    (h1 + h2 * BitVec.ofNat 32 i).toNat % (bf.bits.length * 8)

/-- `BloomFilter::insert`. -/
def insert (bf : BloomFilter) (hash : BitVec 64) : BloomFilter :=
  { bf with bits := setBits bf.bits (bf.bitPositions hash) }

/-- `BloomFilter::might_contain`. -/
def mightContain (bf : BloomFilter) (hash : BitVec 64) : Bool :=
  (bf.bitPositions hash).all (testBit bf.bits)

end BloomFilter

/-! ## Building and probing -/

/-- The `i64` values `compute_segment_blooms` hashes; `none` for the
representations without a filter. -/
def bloomValues : TypedColumn → Option (List (BitVec 64))
  | .int16 values => some (values.reduceOption.map (BitVec.signExtend 64))
  | .int32 values => some (values.reduceOption.map (BitVec.signExtend 64))
  | .int64 values => some values.reduceOption
  | .float32 values => some (values.reduceOption.map (BitVec.setWidth 64))
  | .float64 values => some values.reduceOption
  | _ => none

structure BloomEntry where
  colIdx : ℕ
  numHashes : ℕ
  bloomBytes : Bytes
deriving DecidableEq, Repr

section Hash

variable (rounded : ℕ → ℕ → ℕ) (hash : BitVec 64 → BitVec 64)

/-- The filter of one column: none without min/max support or with an ndistinct
estimate that is not positive. -/
def columnBloom (dataType : DataType) (nd : ℤ) (data : TypedColumn) : Option BloomFilter :=
  if !dataType.supportsMinmax || decide (nd ≤ 0) then none
  else (bloomValues data).map fun values =>
    values.foldl (fun bf x => bf.insert (hash x)) (.forNdistinct rounded nd.toNat)

def computeSegmentBlooms : ℕ → List ℤ → List (ColumnMeta × TypedColumn) → List BloomEntry
  | _, _, [] => []
  | colIdx, nds, (col, data) :: rest =>
      if col.isSegmentBy then computeSegmentBlooms colIdx nds rest
      else
        match columnBloom rounded hash col.dataType (nds.headD 0) data with
        | some bf =>
            ⟨colIdx, bf.numHashes, bf.bits⟩ :: computeSegmentBlooms (colIdx + 1) nds.tail rest
        | none => computeSegmentBlooms (colIdx + 1) nds.tail rest

def bloomProbeEncode (datum : Datum) : TypeOid → BitVec 64
  | .timestamp | .timestamptz => encodeTimestamp datum
  | .date => encodeDate (datum.setWidth 32)
  | .float4 => (datum.setWidth 32).setWidth 64
  | _ => datum

/-- A stored filter keeps the segment: one of the constants may be in it. -/
def bloomKeeps (e : BloomEntry) (typeOid : TypeOid) (consts : List Datum) : Bool :=
  consts.any fun c =>
    (BloomFilter.fromBytes e.bloomBytes e.numHashes).mightContain (hash (bloomProbeEncode c typeOid))

end Hash

/-! ## The filter holds what was inserted -/

namespace BloomFilter

@[simp] theorem insert_numHashes (bf : BloomFilter) (h : BitVec 64) :
    (bf.insert h).numHashes = bf.numHashes := rfl

@[simp] theorem length_insert_bits (bf : BloomFilter) (h : BitVec 64) :
    (bf.insert h).bits.length = bf.bits.length := by
  simp [insert]

theorem bitPositions_insert (bf : BloomFilter) (h h' : BitVec 64) :
    (bf.insert h).bitPositions h' = bf.bitPositions h' := by
  simp [bitPositions]

theorem lt_of_mem_bitPositions {bf : BloomFilter} (hpos : 0 < bf.bits.length) {h : BitVec 64}
    {pos : ℕ} (hmem : pos ∈ bf.bitPositions h) : pos < 8 * bf.bits.length := by
  simp only [bitPositions, List.mem_map] at hmem
  obtain ⟨i, _, rfl⟩ := hmem
  rw [Nat.mul_comm 8]
  exact Nat.mod_lt _ (by omega)

/-- The bits of a filter after a run of insertions: a step lemma by `insert`, and
the run by induction over the inserted hashes. -/
theorem testBit_foldl_insert (hashes : List (BitVec 64)) (bf : BloomFilter)
    (hpos : 0 < bf.bits.length) (pos : ℕ) :
    testBit (hashes.foldl insert bf).bits pos =
      (testBit bf.bits pos || hashes.any fun h => decide (pos ∈ bf.bitPositions h)) := by
  induction hashes generalizing bf with
  | nil => simp
  | cons h hashes ih =>
      rw [List.foldl_cons, ih (bf.insert h) (by simpa using hpos)]
      simp only [bitPositions_insert, List.any_cons]
      rw [insert, testBit_setBits, Bool.or_assoc]
      by_cases hmem : pos ∈ bf.bitPositions h
      · simp [hmem, lt_of_mem_bitPositions hpos hmem]
      · simp [hmem]

theorem foldl_insert_numHashes (hashes : List (BitVec 64)) (bf : BloomFilter) :
    (hashes.foldl insert bf).numHashes = bf.numHashes := by
  induction hashes generalizing bf with
  | nil => rfl
  | cons h hashes ih => rw [List.foldl_cons, ih, insert_numHashes]

theorem length_foldl_insert (hashes : List (BitVec 64)) (bf : BloomFilter) :
    (hashes.foldl insert bf).bits.length = bf.bits.length := by
  induction hashes generalizing bf with
  | nil => rfl
  | cons h hashes ih => rw [List.foldl_cons, ih, length_insert_bits]

theorem bitPositions_foldl_insert (hashes : List (BitVec 64)) (bf : BloomFilter) (h : BitVec 64) :
    (hashes.foldl insert bf).bitPositions h = bf.bitPositions h := by
  simp only [bitPositions, foldl_insert_numHashes, length_foldl_insert]

/-- What a filter built from empty says of a hash. -/
theorem mightContain_foldl_insert {rounded : ℕ → ℕ → ℕ} {nd : ℕ} (hashes : List (BitVec 64))
    (h : BitVec 64) :
    (hashes.foldl insert (forNdistinct rounded nd)).mightContain h = true ↔
      ∀ pos ∈ (forNdistinct rounded nd).bitPositions h,
        ∃ h' ∈ hashes, pos ∈ (forNdistinct rounded nd).bitPositions h' := by
  have hsize : 0 < (forNdistinct rounded nd).bits.length := by
    simp only [forNdistinct, List.length_replicate, bloomSizeForNdistinct]
    omega
  rw [mightContain, bitPositions_foldl_insert, List.all_eq_true]
  have hempty : ∀ pos, testBit (forNdistinct rounded nd).bits pos = false :=
    testBit_replicate_zero _
  simp only [testBit_foldl_insert _ _ hsize, hempty, Bool.false_or, List.any_eq_true,
    decide_eq_true_eq]

theorem mightContain_of_mem {rounded : ℕ → ℕ → ℕ} {nd : ℕ} {hashes : List (BitVec 64)}
    {h : BitVec 64} (hmem : h ∈ hashes) :
    (hashes.foldl insert (forNdistinct rounded nd)).mightContain h = true :=
  (mightContain_foldl_insert hashes h).mpr fun _ hpos => ⟨h, hmem, hpos⟩

end BloomFilter

theorem mem_computeSegmentBlooms_iff (rounded : ℕ → ℕ → ℕ) (hash : BitVec 64 → BitVec 64)
    (start : ℕ) (nds : List ℤ) (cols : List (ColumnMeta × TypedColumn)) (e : BloomEntry) :
    e ∈ computeSegmentBlooms rounded hash start nds cols ↔
      ∃ i col data bf, (cols.filter fun c => !c.1.isSegmentBy)[i]? = some (col, data) ∧
        columnBloom rounded hash col.dataType (nds.getD i 0) data = some bf ∧
          e = ⟨start + i, bf.numHashes, bf.bits⟩ := by
  induction cols generalizing start nds with
  | nil => simp [computeSegmentBlooms]
  | cons c cols ih =>
      obtain ⟨col, data⟩ := c
      have hnd : nds.headD 0 = nds.getD 0 0 := by cases nds <;> rfl
      have htail : ∀ i, nds.tail.getD i 0 = nds.getD (i + 1) 0 := by cases nds <;> simp
      unfold computeSegmentBlooms
      cases hseg : col.isSegmentBy with
      | true => simp [ih, hseg]
      | false =>
          simp only [Bool.false_eq_true, if_false, hseg, Bool.not_false, List.filter_cons_of_pos]
          -- the first column gives its own entry, the others are numbered from the next index
          have hsplit : (∃ i col' data' bf, ((col, data) :: cols.filter fun c =>
                  !c.1.isSegmentBy)[i]? = some (col', data') ∧
                columnBloom rounded hash col'.dataType (nds.getD i 0) data' = some bf ∧
                e = ⟨start + i, bf.numHashes, bf.bits⟩) ↔
              (∃ bf, columnBloom rounded hash col.dataType (nds.headD 0) data = some bf ∧
                e = ⟨start, bf.numHashes, bf.bits⟩) ∨
              e ∈ computeSegmentBlooms rounded hash (start + 1) nds.tail cols := by
            rw [ih, hnd]
            simp only [htail]
            constructor
            · rintro ⟨i, col', data', bf, hget, hbf, rfl⟩
              cases i with
              | zero =>
                  cases hget
                  exact .inl ⟨bf, hbf, rfl⟩
              | succ i =>
                  refine .inr ⟨i, col', data', bf, by simpa using hget, hbf, ?_⟩
                  rw [show start + 1 + i = start + (i + 1) by omega]
            · rintro (⟨bf, hbf, rfl⟩ | ⟨i, col', data', bf, hget, hbf, rfl⟩)
              · exact ⟨0, col, data, bf, rfl, hbf, rfl⟩
              · refine ⟨i + 1, col', data', bf, by simpa using hget, hbf, ?_⟩
                rw [show start + 1 + i = start + (i + 1) by omega]
          rw [hsplit]
          cases hbf : columnBloom rounded hash col.dataType (nds.headD 0) data with
          | none => simp
          | some bf => simp

/-! ## From the rows to the constants -/

/-- The types whose columns get a filter that scans probe. -/
inductive BloomType
  | int2 | int4 | int8
  | float4 | float8
  | date | timestamp | timestamptz
deriving DecidableEq, Repr

namespace BloomType

/-- Bits of a value as PostgreSQL holds it. -/
def width : BloomType → ℕ
  | int2 => 16
  | int4 | float4 | date => 32
  | int8 | float8 | timestamp | timestamptz => 64

def dataType : BloomType → DataType
  | int2 => .smallint
  | int4 => .integer
  | int8 => .bigint
  | float4 => .real
  | float8 => .doublePrecision
  | date => .date
  | timestamp => .timestamp
  | timestamptz => .timestamptz

/-- The column `append_row_to_columns` reads the rows into. -/
def typed : (t : BloomType) → List (Option (BitVec t.width)) → TypedColumn
  | int2, rows => .int16 rows
  | int4, rows => .int32 rows
  | int8, rows => .int64 rows
  | float4, rows => .float32 rows
  | float8, rows => .float64 rows
  | date, rows => .int64 (rows.map (Option.map encodeDate))
  | timestamp, rows => .int64 (rows.map (Option.map encodeTimestamp))
  | timestamptz, rows => .int64 (rows.map (Option.map encodeTimestamp))

/-- PostgreSQL equality of a value and a constant of the type.  Integer datums are
sign-extended, so an integer constant is the whole datum. -/
def Equal : (t : BloomType) → BitVec t.width → Datum → Prop
  | int2, v, c => v.toInt = c.toInt
  | int4, v, c => v.toInt = c.toInt
  | int8, v, c => v.toInt = c.toInt
  | float4, v, c => rank binary32 v = rank binary32 (c.setWidth 32)
  | float8, v, c => rank binary64 v = rank binary64 c
  | date, v, c => v = c.setWidth 32
  | timestamp, v, c => v = c
  | timestamptz, v, c => v = c

/-- The value of the type that a constant's datum holds. -/
def ofDatum : (t : BloomType) → Datum → BitVec t.width
  | int2, c => c.setWidth 16
  | int4, c => c.setWidth 32
  | int8, c => c
  | float4, c => c.setWidth 32
  | float8, c => c
  | date, c => c.setWidth 32
  | timestamp, c => c
  | timestamptz, c => c

def isFloat : BloomType → Bool
  | float4 | float8 => true
  | _ => false

/-- The filter of column `j` exists, and keeps the segment whenever a row equals a
constant. -/
structure NoFalseNegative (t : BloomType) (rounded : ℕ → ℕ → ℕ) (hash : BitVec 64 → BitVec 64)
    (cols : List (ColumnMeta × TypedColumn)) (nds : List ℤ) (j : ℕ)
    (rows : List (Option (BitVec t.width))) (consts : List Datum) : Prop where
  built : ∃ e ∈ computeSegmentBlooms rounded hash 0 nds cols, e.colIdx = j
  keeps : (∃ v ∈ rows.reduceOption, ∃ c ∈ consts, t.Equal v c) →
    ∀ e ∈ computeSegmentBlooms rounded hash 0 nds cols, e.colIdx = j →
      bloomKeeps hash e t.dataType.typeOid consts = true

/-- On a float column, if a row equals a constant then some row has the very bits
of some constant. -/
def BloomCondition (t : BloomType) (rows : List (Option (BitVec t.width)))
    (consts : List Datum) : Prop :=
  t.isFloat = true → (∃ v ∈ rows.reduceOption, ∃ c ∈ consts, t.Equal v c) →
    ∃ v ∈ rows.reduceOption, ∃ c ∈ consts, v = t.ofDatum c

def hashed : (t : BloomType) → BitVec t.width → BitVec 64
  | int2, v => v.signExtend 64
  | int4, v => v.signExtend 64
  | int8, v => v
  | float4, v => v.setWidth 64
  | float8, v => v
  | date, v => encodeDate v
  | timestamp, v => encodeTimestamp v
  | timestamptz, v => encodeTimestamp v

theorem bloomValues_typed (t : BloomType) (rows : List (Option (BitVec t.width))) :
    bloomValues (t.typed rows) = some (rows.reduceOption.map t.hashed) := by
  cases t with
  | int2 | int4 | float4 => rfl
  | int8 | float8 => exact congrArg some (List.map_id rows.reduceOption).symm
  | date => exact congrArg some (List.reduceOption_map (f := encodeDate))
  | timestamp | timestamptz => exact congrArg some (List.reduceOption_map (f := encodeTimestamp))

/-- Both sides agree on the bits of a value. -/
theorem hashed_ofDatum_of_isFloat {t : BloomType} (hfloat : t.isFloat = true)
    (v : BitVec t.width) (c : Datum) :
    t.hashed v = bloomProbeEncode c t.dataType.typeOid ↔ v = t.ofDatum c := by
  cases t with
  | float4 =>
      change BitVec.setWidth 64 v = BitVec.setWidth 64 (BitVec.setWidth 32 c) ↔
        v = BitVec.setWidth 32 c
      constructor
      · intro h
        have hnat := congrArg BitVec.toNat h
        rw [BitVec.toNat_setWidth, BitVec.toNat_setWidth, Nat.mod_eq_of_lt, Nat.mod_eq_of_lt] at hnat
        · exact BitVec.eq_of_toNat_eq hnat
        · exact (BitVec.setWidth 32 c).isLt.trans (by decide)
        · exact v.isLt.trans (by decide)
      · rintro rfl
        rfl
  | float8 => rfl
  | int2 | int4 | int8 | date | timestamp | timestamptz => cases hfloat

/-- Outside the floats, equal values are hashed alike on both sides. -/
theorem hashed_of_equal {t : BloomType} (hfloat : t.isFloat = false) {v : BitVec t.width}
    {c : Datum} (h : t.Equal v c) : t.hashed v = bloomProbeEncode c t.dataType.typeOid := by
  cases t with
  | float4 | float8 => cases hfloat
  | int2 =>
      apply BitVec.eq_of_toInt_eq
      exact (BitVec.toInt_signExtend_of_le (by decide)).trans h
  | int4 =>
      apply BitVec.eq_of_toInt_eq
      exact (BitVec.toInt_signExtend_of_le (by decide)).trans h
  | int8 => exact BitVec.eq_of_toInt_eq h
  | date => exact congrArg encodeDate h
  | timestamp | timestamptz => exact congrArg encodeTimestamp h

theorem supportsMinmax_dataType (t : BloomType) : t.dataType.supportsMinmax = true := by
  cases t <;> rfl

def filter (t : BloomType) (rounded : ℕ → ℕ → ℕ) (hash : BitVec 64 → BitVec 64) (nd : ℤ)
    (rows : List (Option (BitVec t.width))) : BloomFilter :=
  ((rows.reduceOption.map t.hashed).map hash).foldl BloomFilter.insert
    (.forNdistinct rounded nd.toNat)

theorem columnBloom_typed (t : BloomType) (rounded : ℕ → ℕ → ℕ) (hash : BitVec 64 → BitVec 64)
    {nd : ℤ} (hnd : 0 < nd) (rows : List (Option (BitVec t.width))) :
    columnBloom rounded hash t.dataType nd (t.typed rows) =
      some (t.filter rounded hash nd rows) := by
  simp only [columnBloom, supportsMinmax_dataType, bloomValues_typed, not_le.mpr hnd,
    Bool.not_true, Bool.false_or, decide_false, Bool.false_eq_true, if_false, Option.map_some,
    filter, List.foldl_map]

section Column

variable {t : BloomType} (rounded : ℕ → ℕ → ℕ) {cols : List (ColumnMeta × TypedColumn)}
  {nds : List ℤ} {j : ℕ} {col : ColumnMeta} {rows : List (Option (BitVec t.width))}

theorem entry_iff (hash : BitVec 64 → BitVec 64)
    (hcol : (cols.filter fun c => !c.1.isSegmentBy)[j]? = some (col, t.typed rows))
    (htype : col.dataType = t.dataType) (hnd : 0 < nds.getD j 0) (e : BloomEntry) :
    (e ∈ computeSegmentBlooms rounded hash 0 nds cols ∧ e.colIdx = j) ↔
      e = ⟨j, (t.filter rounded hash (nds.getD j 0) rows).numHashes,
        (t.filter rounded hash (nds.getD j 0) rows).bits⟩ := by
  rw [mem_computeSegmentBlooms_iff]
  have hbloom := columnBloom_typed t rounded hash hnd rows
  rw [← htype] at hbloom
  constructor
  · rintro ⟨⟨i, col', data, bf, hget, hbf, rfl⟩, hidx⟩
    have hij : i = j := by simpa using hidx
    subst hij
    rw [hcol] at hget
    cases hget
    rw [hbloom] at hbf
    cases hbf
    simp
  · rintro rfl
    exact ⟨⟨j, col, _, _, hcol, hbloom, by simp⟩, rfl⟩

/-- Keeping the segment, in terms of the filter before it was stored. -/
theorem noFalseNegative_iff (hash : BitVec 64 → BitVec 64)
    (hcol : (cols.filter fun c => !c.1.isSegmentBy)[j]? = some (col, t.typed rows))
    (htype : col.dataType = t.dataType) (hnd : 0 < nds.getD j 0) (consts : List Datum) :
    t.NoFalseNegative rounded hash cols nds j rows consts ↔
      ((∃ v ∈ rows.reduceOption, ∃ c ∈ consts, t.Equal v c) →
        ∃ c ∈ consts, (t.filter rounded hash (nds.getD j 0) rows).mightContain
          (hash (bloomProbeEncode c t.dataType.typeOid)) = true) := by
  have hentry := entry_iff rounded hash hcol htype hnd
  have hkeeps : ∀ e, e = (⟨j, (t.filter rounded hash (nds.getD j 0) rows).numHashes,
        (t.filter rounded hash (nds.getD j 0) rows).bits⟩ : BloomEntry) →
      (bloomKeeps hash e t.dataType.typeOid consts = true ↔
        ∃ c ∈ consts, (t.filter rounded hash (nds.getD j 0) rows).mightContain
          (hash (bloomProbeEncode c t.dataType.typeOid)) = true) := by
    rintro e rfl
    simp only [bloomKeeps, BloomFilter.fromBytes, List.any_eq_true]
  constructor
  · intro h hex
    obtain ⟨e, hmem, hidx⟩ := h.built
    exact (hkeeps e ((hentry e).mp ⟨hmem, hidx⟩)).mp (h.keeps hex e hmem hidx)
  · intro h
    refine ⟨?_, ?_⟩
    · exact ⟨_, (hentry _).mpr rfl⟩
    · intro hex e hmem hidx
      exact (hkeeps e ((hentry e).mp ⟨hmem, hidx⟩)).mpr (h hex)

end Column

/-- A row and a constant that are hashed alike keep the segment. -/
theorem mightContain_of_hashed_eq (t : BloomType) (rounded : ℕ → ℕ → ℕ)
    (hash : BitVec 64 → BitVec 64) (nd : ℤ) {rows : List (Option (BitVec t.width))}
    {v : BitVec t.width} (hv : v ∈ rows.reduceOption) {c : Datum}
    (h : t.hashed v = bloomProbeEncode c t.dataType.typeOid) :
    (t.filter rounded hash nd rows).mightContain
      (hash (bloomProbeEncode c t.dataType.typeOid)) = true := by
  apply BloomFilter.mightContain_of_mem
  rw [← h]
  exact List.mem_map_of_mem (List.mem_map_of_mem hv)

/-- A hash that sends the probes to bit 1 and everything else to bit 0. -/
def separatingHash (probes : List (BitVec 64)) (x : BitVec 64) : BitVec 64 :=
  if x ∈ probes then 1#64 <<< 32 else 0#64

theorem bitPositions_zero (bf : BloomFilter) {pos : ℕ} (h : pos ∈ bf.bitPositions 0#64) :
    pos = 0 := by
  simp only [BloomFilter.bitPositions, List.mem_map] at h
  obtain ⟨i, _, rfl⟩ := h
  simp

theorem one_mem_bitPositions (rounded : ℕ → ℕ → ℕ) (nd : ℕ) :
    1 ∈ (BloomFilter.forNdistinct rounded nd).bitPositions (1#64 <<< 32) := by
  have hsize : 64 ≤ bloomSizeForNdistinct nd := le_max_left _ _
  have hk : 0 < optimalK rounded (bloomSizeForNdistinct nd * 8) nd := by
    unfold optimalK
    split <;> omega
  have hhigh : ((1#64 <<< 32 >>> 32).setWidth 32 : BitVec 32) = 1#32 := by decide
  have hlow : ((1#64 <<< 32).setWidth 32 : BitVec 32) = 0#32 := by decide
  simp only [BloomFilter.bitPositions, BloomFilter.forNdistinct, List.mem_map, List.mem_range,
    List.length_replicate, hhigh, hlow]
  refine ⟨0, hk, ?_⟩
  simp only [BitVec.zero_mul, BitVec.add_zero, BitVec.toNat_ofNat, Nat.reducePow, Nat.reduceMod]
  exact Nat.mod_eq_of_lt (by omega)

/-- When no row is hashed like a constant, some hash drops the segment. -/
theorem not_mightContain_separating (t : BloomType) (rounded : ℕ → ℕ → ℕ) (nd : ℤ)
    (rows : List (Option (BitVec t.width))) (consts : List Datum)
    (hapart : ∀ v ∈ rows.reduceOption, ∀ c ∈ consts,
      t.hashed v ≠ bloomProbeEncode c t.dataType.typeOid) {c : Datum} (hc : c ∈ consts) :
    (t.filter rounded
        (separatingHash (consts.map fun c => bloomProbeEncode c t.dataType.typeOid)) nd
        rows).mightContain
      (separatingHash (consts.map fun c => bloomProbeEncode c t.dataType.typeOid)
        (bloomProbeEncode c t.dataType.typeOid)) ≠ true := by
  intro hmight
  rw [filter, BloomFilter.mightContain_foldl_insert] at hmight
  have hprobe : separatingHash (consts.map fun c => bloomProbeEncode c t.dataType.typeOid)
      (bloomProbeEncode c t.dataType.typeOid) = 1#64 <<< 32 :=
    if_pos (List.mem_map_of_mem hc)
  rw [hprobe] at hmight
  obtain ⟨h', hh', hone⟩ := hmight 1 (one_mem_bitPositions rounded nd.toNat)
  obtain ⟨x, hx, rfl⟩ := List.mem_map.mp hh'
  obtain ⟨v, hv, rfl⟩ := List.mem_map.mp hx
  have hrow : separatingHash (consts.map fun c => bloomProbeEncode c t.dataType.typeOid)
      (t.hashed v) = 0#64 := by
    apply if_neg
    intro hmem
    obtain ⟨c', hc', heq⟩ := List.mem_map.mp hmem
    exact hapart v hv c' hc' heq.symm
  rw [hrow] at hone
  exact absurd (bitPositions_zero _ hone) one_ne_zero

end BloomType

/-- Bloom pruning has no false negative, whatever the hash, exactly when the float
rows that equal a constant include one with the constant's very bits. -/
theorem bloom_noFalseNegative_iff (t : BloomType) (rounded : ℕ → ℕ → ℕ)
    (cols : List (ColumnMeta × TypedColumn)) (nds : List ℤ) (j : ℕ) (col : ColumnMeta)
    (rows : List (Option (BitVec t.width))) (consts : List Datum)
    (hcol : (cols.filter fun c => !c.1.isSegmentBy)[j]? = some (col, t.typed rows))
    (htype : col.dataType = t.dataType) (hnd : 0 < nds.getD j 0) :
    (∀ hash, t.NoFalseNegative rounded hash cols nds j rows consts) ↔
      t.BloomCondition rows consts := by
  simp only [BloomType.noFalseNegative_iff rounded _ hcol htype hnd]
  constructor
  · intro h hfloat hex
    by_contra hnone
    push Not at hnone
    obtain ⟨c, hc, hmight⟩ := h
      (BloomType.separatingHash (consts.map fun c => bloomProbeEncode c t.dataType.typeOid)) hex
    refine BloomType.not_mightContain_separating t rounded _ rows consts ?_ hc hmight
    intro v hv c hc heq
    exact hnone v hv c hc ((BloomType.hashed_ofDatum_of_isFloat hfloat v c).mp heq)
  · intro hcond hash hex
    cases hfloat : t.isFloat with
    | true =>
        obtain ⟨v, hv, c, hc, heq⟩ := hcond hfloat hex
        exact ⟨c, hc, BloomType.mightContain_of_hashed_eq t rounded hash _ hv
          ((BloomType.hashed_ofDatum_of_isFloat hfloat v c).mpr heq)⟩
    | false =>
        obtain ⟨v, hv, c, hc, heq⟩ := hex
        exact ⟨c, hc, BloomType.mightContain_of_hashed_eq t rounded hash _ hv
          (BloomType.hashed_of_equal hfloat heq)⟩

theorem bloom_noFalseNegative_iff_date :
    BloomType.date.BloomCondition [some 0, none, some 9] [9] ∧
      ∀ hash, BloomType.date.NoFalseNegative (fun _ _ => 7) hash
        [(⟨['d'], .date, false, false⟩, BloomType.date.typed [some 0, none, some 9])] [2] 0
        [some 0, none, some 9] [9] := by
  have hcond : BloomType.date.BloomCondition [some 0, none, some 9] [9] := by
    intro hfloat
    cases hfloat
  refine ⟨hcond, ?_⟩
  exact (bloom_noFalseNegative_iff .date (fun _ _ => 7)
    [(⟨['d'], .date, false, false⟩, BloomType.date.typed [some 0, none, some 9])] [2] 0
    ⟨['d'], .date, false, false⟩ [some 0, none, some 9] [9] rfl rfl (by decide)).mpr hcond

/-- A segment that holds only `-0` is dropped for `column = 0`. -/
theorem negativeZero_bloom_falseNegative :
    ¬ ∀ hash, BloomType.float8.NoFalseNegative (fun _ _ => 7) hash
      [(⟨['f'], .doublePrecision, false, false⟩,
        BloomType.float8.typed [some 0x8000000000000000#64])] [1] 0
      [some 0x8000000000000000#64] [0] := by
  intro h
  have hequal : BloomType.float8.Equal 0x8000000000000000#64 0#64 := by
    change rank binary64 0x8000000000000000#64 = rank binary64 0#64
    decide
  have hbuilt := (BloomType.noFalseNegative_iff (fun _ _ => 7) _ rfl rfl (by decide) _).mp
    (h (BloomType.separatingHash [0#64]))
  obtain ⟨c, hc, hmight⟩ := hbuilt
    ⟨_, List.mem_singleton_self _, _, List.mem_singleton_self _, hequal⟩
  refine BloomType.not_mightContain_separating .float8 (fun _ _ => 7) _
    [some 0x8000000000000000#64] [0#64] ?_ hc hmight
  intro v hv c hc
  obtain rfl := List.mem_singleton.mp hv
  obtain rfl := List.mem_singleton.mp hc
  change 0x8000000000000000#64 ≠ 0#64
  decide

end DeltaX.Stats.Bloom
