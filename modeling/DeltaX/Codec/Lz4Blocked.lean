import DeltaX.Codec.Lz4
/-!
# The rows of a blocked LZ4 column

What the writer stores is one readable block for each chunk of rows.  The selective reader's two
passes are followed chunk by chunk: the first finds the chunks with a selected row, the second
lays them out one after the other, and each row's range is where its bytes came to lie.
-/

namespace DeltaX.Codec.Lz4

open Support.LittleEndian Support.ByteSlices Support.Utf8 Support.Chunks

variable {lz4 : Lz4Flex} {data : List UInt8}

/-! ## Packed strings -/

theorem length_packString (s : List UInt8) : (packString s).length = 4 + s.length := by
  rw [packString, List.length_append, length_toLe]

theorem pack_cons (s : List UInt8) (values : List (List UInt8)) :
    pack (s :: values) = packString s ++ pack values := List.flatMap_cons

theorem pack_append (values more : List (List UInt8)) :
    pack (values ++ more) = pack values ++ pack more := List.flatMap_append

theorem pack_flatten (blocks : List (List (List UInt8))) :
    (blocks.map pack).flatten = pack blocks.flatten := by
  induction blocks with
  | nil => rfl
  | cons block blocks ih =>
      rw [List.map_cons, List.flatten_cons, List.flatten_cons, pack_append, ih]

theorem length_le_length_pack {s : List UInt8} {values : List (List UInt8)} (hs : s ∈ values) :
    s.length ≤ (pack values).length := by
  induction values with
  | nil => exact absurd hs List.not_mem_nil
  | cons v values ih =>
      rw [pack_cons, List.length_append, length_packString]
      cases List.mem_cons.mp hs with
      | inl hv => rw [hv]; omega
      | inr hrest =>
          have := ih hrest
          omega

/-- Where the strings lie behind an offset. -/
def rangesOf (offset : ℕ) : List (List UInt8) → List (ℕ × ℕ)
  | [] => []
  | s :: values => (offset + 4, s.length) :: rangesOf (offset + 4 + s.length) values

@[simp] theorem length_rangesOf (offset : ℕ) (values : List (List UInt8)) :
    (rangesOf offset values).length = values.length := by
  induction values generalizing offset with
  | nil => rfl
  | cons s values ih => rw [rangesOf, List.length_cons, ih, List.length_cons]

section Packed

variable {raw rest : List UInt8} {offset : ℕ}

/-- What a string's place reads: its length, its bytes, and what follows. -/
theorem read_packString {s tail : List UInt8} (hs : s.length < 2 ^ 32)
    (hat : At raw offset (packString s ++ tail)) :
    leAt 4 raw offset = some s.length ∧
      slice raw (offset + 4) (offset + 4 + s.length) = some s ∧
      At raw (offset + 4 + s.length) tail := by
  rw [packString, List.append_assoc] at hat
  have hbytes := hat.skip
  rw [length_toLe] at hbytes
  exact ⟨hat.leAt hs, hbytes.slice, hbytes.skip⟩

theorem stringRanges_pack {values : List (List UInt8)} (hshort : ∀ s ∈ values, s.length < 2 ^ 32)
    (hat : At raw offset (pack values ++ rest)) :
    stringRanges raw values.length offset = some (rangesOf offset values) := by
  induction values generalizing offset with
  | nil => rfl
  | cons s values ih =>
      rw [pack_cons, List.append_assoc] at hat
      obtain ⟨hlen, -, htail⟩ := read_packString (hshort s List.mem_cons_self) hat
      have hrest := ih (fun t ht => hshort t (List.mem_cons_of_mem s ht)) htail
      simp only [List.length_cons, stringRanges, hlen, hrest, bind, Option.bind_some, rangesOf]
      rfl

theorem readStrings_pack {texts : List (List Char)}
    (hshort : ∀ s ∈ texts.map utf8Bytes, s.length < 2 ^ 32)
    (hat : At raw offset (pack (texts.map utf8Bytes) ++ rest)) :
    readStrings raw texts.length offset = some texts := by
  induction texts generalizing offset with
  | nil => rfl
  | cons text texts ih =>
      rw [List.map_cons] at hshort
      rw [List.map_cons, pack_cons, List.append_assoc] at hat
      obtain ⟨hlen, hbytes, htail⟩ := read_packString (hshort _ List.mem_cons_self) hat
      have hrest := ih (fun t ht => hshort t (List.mem_cons_of_mem _ ht)) htail
      simp only [List.length_cons, readStrings, hlen, hbytes, fromUtf8_utf8Bytes, hrest, bind,
        Option.bind_some]
      rfl

/-- Each range holds its string. -/
theorem forall₂_rangesOf {values : List (List UInt8)}
    (hshort : ∀ s ∈ values, s.length < 2 ^ 32) (hat : At raw offset (pack values ++ rest)) :
    List.Forall₂ (fun s r => slice raw r.1 (r.1 + r.2) = some s) values
      (rangesOf offset values) := by
  induction values generalizing offset with
  | nil => exact List.Forall₂.nil
  | cons s values ih =>
      rw [pack_cons, List.append_assoc] at hat
      obtain ⟨-, hbytes, htail⟩ := read_packString (hshort s List.mem_cons_self) hat
      exact List.Forall₂.cons hbytes (ih (fun t ht => hshort t (List.mem_cons_of_mem s ht)) htail)

end Packed

/-! ## Stored blocks -/

/-- Block `i` of the data holds `raw`. -/
structure BlockAt (lz4 : Lz4Flex) (data : List UInt8) (i : ℕ) (raw : List UInt8) : Prop where
  size : blockSizeAt lz4 data i = some raw.length
  bytes : ∃ payload, blockBytes lz4 data i = some (raw.length, payload) ∧
    lz4.decompressInto payload raw.length = some raw

/-- The blocks from `i` on hold the packed rows of the chunks. -/
def BlocksFrom (lz4 : Lz4Flex) (data : List UInt8) (i : ℕ) (raws : List (List UInt8)) : Prop :=
  ∀ k raw, raws[k]? = some raw → BlockAt lz4 data (i + k) raw

theorem BlocksFrom.head {i : ℕ} {raw : List UInt8} {raws : List (List UInt8)}
    (h : BlocksFrom lz4 data i (raw :: raws)) : BlockAt lz4 data i raw := h 0 raw rfl

theorem BlocksFrom.tail {i : ℕ} {raw : List UInt8} {raws : List (List UInt8)}
    (h : BlocksFrom lz4 data i (raw :: raws)) : BlocksFrom lz4 data (i + 1) raws := by
  intro k next hk
  have hnext := h (k + 1) next hk
  rwa [show i + (k + 1) = i + 1 + k by omega] at hnext

theorem overwrite_append {α : Type} (done ys rest : List α) :
    overwrite (done ++ rest) done.length ys = done ++ ys ++ rest.drop ys.length := by
  rw [overwrite, List.take_left, List.drop_append, List.drop_of_length_le (by omega),
    Nat.add_sub_cancel_left, List.nil_append]

theorem decompressBlock_spec {i : ℕ} {raw : List UInt8} (h : BlockAt lz4 data i raw)
    (done : List UInt8) {n : ℕ} (hn : raw.length ≤ n) :
    decompressBlock lz4 data (done ++ List.replicate n 0, done.length) i =
      some (done ++ raw ++ List.replicate (n - raw.length) 0, (done ++ raw).length) := by
  obtain ⟨payload, hbytes, hinto⟩ := h.bytes
  have hroom : slice (done ++ List.replicate n 0) done.length (done.length + raw.length) =
      some (List.replicate raw.length 0) := by
    have hat := at_append done (List.replicate n (0 : UInt8))
    rw [show n = raw.length + (n - raw.length) by omega, ← List.replicate_append_replicate] at hat
    have hslice := hat.slice
    rw [List.length_replicate, List.replicate_append_replicate,
      show raw.length + (n - raw.length) = n by omega] at hslice
    exact hslice
  simp only [decompressBlock, hbytes, hroom, hinto, bind, Option.bind_some, overwrite_append,
    List.drop_replicate, List.length_append]
  rfl

theorem decompressBlocks {i : ℕ} {raws : List (List UInt8)} (h : BlocksFrom lz4 data i raws)
    (done : List UInt8) :
    (List.range' i raws.length).foldlM (decompressBlock lz4 data)
        (done ++ List.replicate raws.flatten.length 0, done.length) =
      some (done ++ raws.flatten, (done ++ raws.flatten).length) := by
  induction raws generalizing i done with
  | nil =>
      simp
  | cons raw raws ih =>
      have hlen : (raw :: raws).flatten.length = raw.length + raws.flatten.length := by
        rw [List.flatten_cons, List.length_append]
      have hstep := decompressBlock_spec h.head done
        (show raw.length ≤ (raw :: raws).flatten.length by omega)
      rw [List.length_cons, List.range'_succ, List.foldlM_cons, hstep]
      show List.foldlM _ _ _ = _
      rw [hlen, Nat.add_sub_cancel_left, ih h.tail, List.flatten_cons, List.append_assoc]

theorem blockSizes {i : ℕ} {raws : List (List UInt8)} (h : BlocksFrom lz4 data i raws) :
    (List.range' i raws.length).mapM (blockSizeAt lz4 data) = some (raws.map List.length) := by
  induction raws generalizing i with
  | nil => rfl
  | cons raw raws ih =>
      rw [List.length_cons, List.range'_succ, List.mapM_cons, h.head.size, ih h.tail]
      rfl

/-! ## What the writer stores -/

@[simp] theorem length_writeOffsets (offset : ℕ) (blocks : List (List UInt8)) :
    (writeOffsets offset blocks).length = 4 * (blocks.length + 1) := by
  induction blocks generalizing offset with
  | nil => rw [writeOffsets, length_toLe]; rfl
  | cons block blocks ih =>
      rw [writeOffsets, List.length_append, length_toLe, ih, List.length_cons]
      omega

/-- The table's entry `k`: where block `k` starts, and the end for the last. -/
theorem leAt_writeOffsets {offset start : ℕ} {blocks : List (List UInt8)} {rest : List UInt8}
    (hat : At data offset (writeOffsets start blocks ++ rest)) {k : ℕ} (hk : k ≤ blocks.length)
    (hsize : start + blocks.flatten.length < 2 ^ 32) :
    leAt 4 data (offset + k * 4) = some (start + (blocks.take k).flatten.length) := by
  induction blocks generalizing offset start k with
  | nil =>
      have hzero : k = 0 := Nat.le_zero.mp hk
      rw [writeOffsets] at hat
      rw [hzero, Nat.zero_mul]
      exact hat.leAt (by simpa using hsize)
  | cons block blocks ih =>
      rw [writeOffsets, List.append_assoc] at hat
      rw [List.flatten_cons, List.length_append] at hsize
      cases k with
      | zero =>
          rw [Nat.zero_mul]
          exact hat.leAt (by omega)
      | succ k =>
          have htail := hat.skip
          rw [length_toLe] at htail
          have hnext := ih htail (Nat.le_of_succ_le_succ hk) (by omega)
          rw [show offset + (k + 1) * 4 = offset + 4 + k * 4 by omega, hnext,
            List.take_succ_cons, List.flatten_cons, List.length_append, Nat.add_assoc]

section Written

variable {values : List (List UInt8)} {blockSize : ℕ}

def storedBlocks (lz4 : Lz4Flex) (values : List (List UInt8)) (blockSize : ℕ) :
    List (List UInt8) := (chunks blockSize values).map (encode lz4)

theorem length_storedBlocks : (storedBlocks lz4 values blockSize).length =
    divCeil values.length blockSize := by
  rw [storedBlocks, List.length_map, length_chunks]

theorem encodeBlocked_eq (hne : values ≠ []) :
    encodeBlocked lz4 values blockSize =
      toLe 2 blockSize ++ (toLe 2 (divCeil values.length blockSize) ++
        (writeOffsets (headerSize (divCeil values.length blockSize))
          (storedBlocks lz4 values blockSize) ++
          (storedBlocks lz4 values blockSize).flatten)) := by
  rw [encodeBlocked, if_neg hne]
  simp only [List.append_assoc]
  rfl

theorem length_encodeBlocked (hne : values ≠ []) :
    (encodeBlocked lz4 values blockSize).length =
      headerSize (divCeil values.length blockSize) +
        (storedBlocks lz4 values blockSize).flatten.length := by
  rw [encodeBlocked_eq hne, List.length_append, List.length_append, List.length_append,
    length_toLe, length_toLe, length_writeOffsets, length_storedBlocks, headerSize]
  omega

/-- Block `k` starts where the blocks before it end. -/
theorem blockOffset_encodeBlocked (hne : values ≠ [])
    (hsize : (encodeBlocked lz4 values blockSize).length < 2 ^ 32) {k : ℕ}
    (hk : k ≤ (storedBlocks lz4 values blockSize).length) :
    blockOffset (encodeBlocked lz4 values blockSize) k =
      some (headerSize (divCeil values.length blockSize) +
        ((storedBlocks lz4 values blockSize).take k).flatten.length) := by
  rw [length_encodeBlocked hne] at hsize
  have hat := at_zero (encodeBlocked lz4 values blockSize)
  have hrest := hat
  rw [encodeBlocked_eq hne] at hat
  rw [encodeBlocked_eq hne] at hrest
  have htable := hrest.skip.skip
  rw [length_toLe, length_toLe] at htable
  rw [← encodeBlocked_eq hne] at htable
  exact leAt_writeOffsets htable hk hsize

/-- Past the table the data reads the blocks from `k` on. -/
theorem at_storedBlocks (hne : values ≠ []) (k : ℕ) :
    At (encodeBlocked lz4 values blockSize)
      (headerSize (divCeil values.length blockSize) +
        ((storedBlocks lz4 values blockSize).take k).flatten.length)
      ((storedBlocks lz4 values blockSize).drop k).flatten := by
  have hsplit : encodeBlocked lz4 values blockSize =
      (toLe 2 blockSize ++ (toLe 2 (divCeil values.length blockSize) ++
        writeOffsets (headerSize (divCeil values.length blockSize))
          (storedBlocks lz4 values blockSize))) ++
        ((storedBlocks lz4 values blockSize).take k).flatten ++
        ((storedBlocks lz4 values blockSize).drop k).flatten := by
    rw [List.append_assoc, ← List.flatten_append, List.take_append_drop, encodeBlocked_eq hne]
    simp only [List.append_assoc]
  have hat := at_append
    ((toLe 2 blockSize ++ (toLe 2 (divCeil values.length blockSize) ++
        writeOffsets (headerSize (divCeil values.length blockSize))
          (storedBlocks lz4 values blockSize))) ++
        ((storedBlocks lz4 values blockSize).take k).flatten)
    ((storedBlocks lz4 values blockSize).drop k).flatten
  rw [← hsplit, List.length_append, List.length_append, List.length_append, length_toLe,
    length_toLe, length_writeOffsets, length_storedBlocks] at hat
  rw [headerSize]
  rwa [← Nat.add_assoc] at hat

theorem blocksFrom_encodeBlocked (hlz4 : lz4.Inverts) (hpos : 0 < blockSize)
    (hne : values ≠ []) (hsize : (encodeBlocked lz4 values blockSize).length < 2 ^ 32)
    (hraw : ∀ c ∈ chunks blockSize values, (pack c).length < 2 ^ 32) :
    BlocksFrom lz4 (encodeBlocked lz4 values blockSize) 0
      ((chunks blockSize values).map pack) := by
  intro k raw hk
  rw [Nat.zero_add]
  rw [List.getElem?_map, Option.map_eq_some_iff] at hk
  obtain ⟨c, hc, hpack⟩ := hk
  have hmem : c ∈ chunks blockSize values := List.mem_of_getElem? hc
  have hlt : k < (storedBlocks lz4 values blockSize).length := by
    rw [storedBlocks, List.length_map]
    exact (List.getElem?_eq_some_iff.mp hc).1
  have hstored : (storedBlocks lz4 values blockSize)[k]? =
      some (lz4.compressPrependSize raw) := by
    rw [storedBlocks, List.getElem?_map, hc, Option.map_some, encode,
      if_neg (ne_nil_of_mem_chunks hpos hmem), hpack]
  have hblock : (storedBlocks lz4 values blockSize)[k] = lz4.compressPrependSize raw :=
    (List.getElem?_eq_some_iff.mp hstored).2
  have hfrom := blockOffset_encodeBlocked hne hsize hlt.le
  have hto := blockOffset_encodeBlocked hne hsize hlt
  rw [List.take_succ_eq_append_getElem hlt, List.flatten_append, List.length_append, hblock,
    List.flatten_singleton, ← Nat.add_assoc] at hto
  have hat : At (encodeBlocked lz4 values blockSize) _ _ := at_storedBlocks hne k
  rw [List.drop_eq_getElem_cons hlt, List.flatten_cons, hblock] at hat
  obtain ⟨payload, hsized, hinto⟩ := hlz4.block raw (hpack ▸ hraw c hmem)
  have hwhole : slice (encodeBlocked lz4 values blockSize)
      (headerSize (divCeil values.length blockSize) +
        ((storedBlocks lz4 values blockSize).take k).flatten.length)
      (encodeBlocked lz4 values blockSize).length =
      some (lz4.compressPrependSize raw ++
        ((storedBlocks lz4 values blockSize).drop (k + 1)).flatten) := by
    have hend := hat
    rw [← List.append_nil (lz4.compressPrependSize raw ++ _)] at hend
    rw [hat.length]
    exact hend.slice
  constructor
  · simp only [blockSizeAt, hfrom, hwhole, hsized, bind, Option.bind_some]
    rfl
  · refine ⟨payload, ?_, hinto⟩
    have hnone := hsized []
    rw [List.append_nil, List.append_nil] at hnone
    simp only [blockBytes, hfrom, hto, hat.slice, hnone, bind, Option.bind_some]

end Written

/-! ## The selective reader

A row is a string with its selection; the rows are followed chunk by chunk.
-/

abbrev Row : Type := List UInt8 × Bool

/-- Whether a chunk has a selected row. -/
def needs (rows : List Row) : Bool := rows.any Prod.snd

def rowsRaw (rows : List Row) : List UInt8 := pack (rows.map Prod.fst)

/-- The buffer the second pass fills. -/
def neededRaw (cs : List (List Row)) : List UInt8 :=
  cs.flatMap fun rows => if needs rows then rowsRaw rows else []

/-- The ranges it returns, behind a position in the buffer. -/
def neededRanges (base : ℕ) : List (List Row) → List (ℕ × ℕ)
  | [] => []
  | rows :: cs =>
      if needs rows then
        rangesOf base (rows.map Prod.fst) ++ neededRanges (base + (rowsRaw rows).length) cs
      else List.replicate rows.length (0, 0) ++ neededRanges base cs

theorem neededRaw_of_needs {rows : List Row} (h : needs rows = true) (cs : List (List Row)) :
    neededRaw (rows :: cs) = rowsRaw rows ++ neededRaw cs := by
  rw [neededRaw, List.flatMap_cons, if_pos h, neededRaw]

theorem neededRaw_of_not_needs {rows : List Row} (h : needs rows = false) (cs : List (List Row)) :
    neededRaw (rows :: cs) = neededRaw cs := by
  rw [neededRaw, List.flatMap_cons, h, if_neg Bool.false_ne_true, List.nil_append, neededRaw]

/-- The selection answers for the rows from `row` on. -/
def Answers (selection : Option (List Bool)) (row : ℕ) (rows : List Row) : Prop :=
  ∀ skip n, 0 < n → skip + n ≤ rows.length →
    anySelected selection (row + skip) n = some (needs ((rows.drop skip).take n))

theorem Answers.first {selection : Option (List Bool)} {row : ℕ} {rows : List Row}
    (h : Answers selection row rows) (hne : rows ≠ []) {size : ℕ} (hpos : 0 < size) :
    anySelected selection row (rows.take size).length = some (needs (rows.take size)) := by
  have hlen : 0 < rows.length := List.length_pos_of_ne_nil hne
  have htake := List.length_take (l := rows) (i := size)
  have hany := h 0 (rows.take size).length (by omega) (by omega)
  rwa [Nat.add_zero, List.drop_zero, htake, ← List.take_eq_take_min, ← htake] at hany

theorem Answers.drop {selection : Option (List Bool)} {row : ℕ} {rows : List Row}
    (h : Answers selection row rows) (size : ℕ) :
    Answers selection (row + (rows.take size).length) (rows.drop size) := by
  intro skip n hn hroom
  rw [List.length_drop] at hroom
  have htake : (rows.take size).length = size := by
    rw [List.length_take]
    omega
  have hdeep := h (size + skip) n hn (by omega)
  rwa [htake, Nat.add_assoc, List.drop_drop]

section Passes

variable {count blockSize : ℕ}

theorem length_first_chunk {rows : List Row} {row : ℕ} (hcount : count = row + rows.length)
    (blockSize : ℕ) : min (count - row) blockSize = (rows.take blockSize).length := by
  rw [List.length_take]
  omega

/-- The first pass. -/
theorem sizeBlocks {selection : Option (List Bool)} (hpos : 0 < blockSize) {rows : List Row} {i : ℕ}
    (hblocks : BlocksFrom lz4 data i ((chunks blockSize rows).map rowsRaw)) (st : Sizing)
    (hcount : count = st.globalRow + rows.length) (hsel : Answers selection st.globalRow rows) :
    (List.range' i (chunks blockSize rows).length).foldlM
        (sizeBlock lz4 data count blockSize selection) st =
      some { blockNeeded := st.blockNeeded ++ (chunks blockSize rows).map needs,
             totalUncompressed :=
               st.totalUncompressed + (neededRaw (chunks blockSize rows)).length,
             globalRow := count } := by
  induction rows using chunks_induction hpos generalizing i st with
  | nil =>
      rw [List.length_nil, Nat.add_zero] at hcount
      rw [chunks_nil hpos, hcount, List.map_nil, List.append_nil]
      rfl
  | step rows hne ih =>
      rw [chunks_of_ne_nil hpos hne] at hblocks ⊢
      rw [List.map_cons] at hblocks
      have hfirst := length_first_chunk hcount blockSize
      have hneed := hsel.first hne hpos
      have hsize : neededSize lz4 data i (needs (rows.take blockSize)) =
          some (if needs (rows.take blockSize) then (rowsRaw (rows.take blockSize)).length
            else 0) := by
        unfold neededSize
        split
        · exact hblocks.head.size
        · rfl
      have hleft : count = st.globalRow + (rows.take blockSize).length +
          (rows.drop blockSize).length := by
        rw [hcount, Nat.add_assoc, ← List.length_append, List.take_append_drop]
      have htotal : (neededRaw (rows.take blockSize ::
            chunks blockSize (rows.drop blockSize))).length =
          (if needs (rows.take blockSize) then (rowsRaw (rows.take blockSize)).length else 0) +
            (neededRaw (chunks blockSize (rows.drop blockSize))).length := by
        cases hcase : needs (rows.take blockSize) with
        | true => rw [neededRaw_of_needs hcase, List.length_append, if_pos rfl]
        | false =>
            rw [neededRaw_of_not_needs hcase, if_neg Bool.false_ne_true, Nat.zero_add]
      rw [List.length_cons, List.range'_succ, List.foldlM_cons]
      simp only [sizeBlock, hfirst, hneed, hsize, bind, Option.bind_some]
      show List.foldlM _ _ _ = _
      rw [ih hblocks.tail _ hleft (hsel.drop blockSize), htotal, List.map_cons, List.append_assoc,
        List.singleton_append, Nat.add_assoc]

theorem fillBlock_needed {i : ℕ} {values : List (List UInt8)} (h : BlockAt lz4 data i (pack values))
    (hshort : ∀ s ∈ values, s.length < 2 ^ 32) (done : List UInt8) (found : List (ℕ × ℕ))
    (hcount : min (count - found.length) blockSize = values.length) (n m : ℕ) :
    fillBlock lz4 data count blockSize
        { mergedBuf := done ++ List.replicate ((pack values).length + n) 0,
          ranges := found ++ List.replicate (values.length + m) (0, 0), bufPos := done.length,
          globalRow := found.length } (true, i) =
      some { mergedBuf := done ++ pack values ++ List.replicate n 0,
             ranges := found ++ rangesOf done.length values ++ List.replicate m (0, 0),
             bufPos := (done ++ pack values).length,
             globalRow := (found ++ rangesOf done.length values).length } := by
  have hstep := decompressBlock_spec h done (Nat.le_add_right (pack values).length n)
  have hat := at_append done (pack values ++ List.replicate n 0)
  rw [← List.append_assoc] at hat
  have hfound := stringRanges_pack hshort hat
  simp only [fillBlock, if_pos, hstep, hcount, hfound, bind, Option.bind_some, overwrite_append,
    Nat.add_sub_cancel_left, List.drop_replicate, length_rangesOf, List.length_append]
  rfl

/-- The second pass: behind `done` and the ranges of the rows so far it appends the buffer and
the ranges of the chunks that are left. -/
theorem fillBlocks (hpos : 0 < blockSize) {rows : List Row} {i : ℕ}
    (hblocks : BlocksFrom lz4 data i ((chunks blockSize rows).map rowsRaw))
    (hshort : ∀ row ∈ rows, row.1.length < 2 ^ 32) (done : List UInt8) (found : List (ℕ × ℕ))
    (hcount : count = found.length + rows.length) :
    (((chunks blockSize rows).map needs).zipIdx i).foldlM (fillBlock lz4 data count blockSize)
        { mergedBuf := done ++ List.replicate (neededRaw (chunks blockSize rows)).length 0,
          ranges := found ++ List.replicate rows.length (0, 0), bufPos := done.length,
          globalRow := found.length } =
      some { mergedBuf := done ++ neededRaw (chunks blockSize rows),
             ranges := found ++ neededRanges done.length (chunks blockSize rows),
             bufPos := (done ++ neededRaw (chunks blockSize rows)).length,
             globalRow := count } := by
  induction rows using chunks_induction hpos generalizing i done found with
  | nil =>
      rw [chunks_nil hpos, hcount]
      simp [neededRaw, neededRanges]
  | step rows hne ih =>
      rw [chunks_of_ne_nil hpos hne] at hblocks ⊢
      rw [List.map_cons] at hblocks
      have hfirst := length_first_chunk hcount blockSize
      have hrows : rows.length = (rows.take blockSize).length + (rows.drop blockSize).length := by
        rw [← List.length_append, List.take_append_drop]
      have hlater : ∀ row ∈ rows.drop blockSize, row.1.length < 2 ^ 32 := fun row hrow =>
        hshort row (List.mem_of_mem_drop hrow)
      rw [List.map_cons, List.zipIdx_cons, List.foldlM_cons, hrows, neededRanges]
      cases hcase : needs (rows.take blockSize) with
      | true =>
          have hvalues : ∀ s ∈ (rows.take blockSize).map Prod.fst, s.length < 2 ^ 32 := by
            intro s hs
            obtain ⟨row, hrow, hsame⟩ := List.mem_map.mp hs
            exact hsame ▸ hshort row (List.mem_of_mem_take hrow)
          have hstep := fillBlock_needed hblocks.head hvalues done found
            (by rw [hfirst, List.length_map])
            (neededRaw (chunks blockSize (rows.drop blockSize))).length
            (rows.drop blockSize).length
          rw [List.length_map] at hstep
          rw [neededRaw_of_needs hcase, List.length_append, if_pos rfl, rowsRaw, hstep]
          show List.foldlM _ _ _ = _
          rw [ih hblocks.tail hlater _ _
            (by rw [List.length_append, length_rangesOf, List.length_map, hcount]; omega)]
          simp only [List.append_assoc, List.length_append]
      | false =>
          have hskip : found ++ List.replicate
              ((rows.take blockSize).length + (rows.drop blockSize).length) ((0, 0) : ℕ × ℕ) =
              found ++ List.replicate (rows.take blockSize).length (0, 0) ++
                List.replicate (rows.drop blockSize).length (0, 0) := by
            rw [List.append_assoc, List.replicate_append_replicate]
          have hrow : found.length + min (count - found.length) blockSize =
              (found ++ List.replicate (rows.take blockSize).length ((0, 0) : ℕ × ℕ)).length := by
            rw [hfirst, List.length_append, List.length_replicate]
          rw [neededRaw_of_not_needs hcase, if_neg Bool.false_ne_true, hskip]
          simp only [fillBlock, if_neg Bool.false_ne_true, hrow]
          show List.foldlM _ _ _ = _
          rw [ih hblocks.tail hlater _ _
            (by rw [List.length_append, List.length_replicate, hcount]; omega), List.append_assoc]

end Passes

/-! ## The rows of the buffer -/

/-- What the reader returns for a row of a chunk that was needed or not. -/
def ReadsAs (buf : List UInt8) (row : List UInt8 × Bool) (range : ℕ × ℕ) : Prop :=
  if row.2 then slice buf range.1 (range.1 + range.2) = some row.1 else range = (0, 0)

def markRows (cs : List (List Row)) : List (List UInt8 × Bool) :=
  cs.flatMap fun rows => rows.map fun row => (row.1, needs rows)

theorem forall₂_getElem? {α β : Type} {R : α → β → Prop} {xs : List α} {ys : List β}
    (h : List.Forall₂ R xs ys) {i : ℕ} {x : α} (hx : xs[i]? = some x) :
    ∃ y, ys[i]? = some y ∧ R x y := by
  obtain ⟨hi, hget⟩ := List.getElem?_eq_some_iff.mp hx
  have hi' : i < ys.length := h.length_eq ▸ hi
  have hrel := h.get hi hi'
  rw [List.get_eq_getElem, List.get_eq_getElem, hget] at hrel
  exact ⟨ys[i], List.getElem?_eq_getElem hi', hrel⟩

theorem forall₂_replicate_of {α β : Type} {R : α → β → Prop} {y : β} {xs : List α}
    (h : ∀ x ∈ xs, R x y) : List.Forall₂ R xs (List.replicate xs.length y) := by
  induction xs with
  | nil => exact List.Forall₂.nil
  | cons x xs ih =>
      exact List.Forall₂.cons (h x List.mem_cons_self)
        (ih fun z hz => h z (List.mem_cons_of_mem x hz))

theorem forall₂_neededRanges {buf rest : List UInt8} {base : ℕ} {cs : List (List Row)}
    (hshort : ∀ rows ∈ cs, ∀ row ∈ rows, row.1.length < 2 ^ 32)
    (hat : At buf base (neededRaw cs ++ rest)) :
    List.Forall₂ (ReadsAs buf) (markRows cs) (neededRanges base cs) := by
  induction cs generalizing base with
  | nil => exact List.Forall₂.nil
  | cons rows cs ih =>
      have hlater : ∀ rows ∈ cs, ∀ row ∈ rows, row.1.length < 2 ^ 32 := fun rs hrs =>
        hshort rs (List.mem_cons_of_mem rows hrs)
      rw [markRows, List.flatMap_cons, neededRanges]
      cases hcase : needs rows with
      | true =>
          rw [neededRaw_of_needs hcase, List.append_assoc] at hat
          have hvalues : ∀ s ∈ rows.map Prod.fst, s.length < 2 ^ 32 := by
            intro s hs
            obtain ⟨row, hrow, hsame⟩ := List.mem_map.mp hs
            exact hsame ▸ hshort rows List.mem_cons_self row hrow
          have hfirst := forall₂_rangesOf hvalues hat
          rw [List.forall₂_map_left_iff] at hfirst
          rw [if_pos rfl]
          apply List.rel_append
          · rw [List.forall₂_map_left_iff]
            exact hfirst.imp fun row range hread => by rwa [ReadsAs, if_pos rfl]
          · exact ih hlater hat.skip
      | false =>
          rw [neededRaw_of_not_needs hcase] at hat
          rw [if_neg Bool.false_ne_true]
          apply List.rel_append
          · rw [List.forall₂_map_left_iff]
            exact forall₂_replicate_of fun row _ => by rw [ReadsAs, if_neg Bool.false_ne_true]
          · exact ih hlater hat

def Selected (selection : Option (List Bool)) (i : ℕ) : Prop :=
  ∀ sel, selection = some sel → sel[i]? = some true

def marks (selection : Option (List Bool)) (count : ℕ) : List Bool :=
  selection.getD (List.replicate count true)

section Rows

variable {values : List (List UInt8)} {blockSize : ℕ} {selection : Option (List Bool)}

def Covers (selection : Option (List Bool)) (count : ℕ) : Prop :=
  ∀ sel, selection = some sel → sel.length = count

theorem length_marks {count : ℕ} (h : Covers selection count) :
    (marks selection count).length = count := by
  cases selection with
  | none => exact List.length_replicate
  | some sel => exact h sel rfl

theorem marks_eq_true {i : ℕ} (hi : i < values.length) :
    (marks selection values.length)[i]? = some true ↔ Selected selection i := by
  cases selection with
  | none =>
      rw [marks, Option.getD_none, List.getElem?_replicate, if_pos hi]
      exact ⟨fun _ sel hsel => absurd hsel (by simp), fun _ => rfl⟩
  | some sel =>
      rw [marks, Option.getD_some]
      exact ⟨fun h sel' hsel => Option.some.inj hsel ▸ h, fun h => h sel rfl⟩

def rowsOf (values : List (List UInt8)) (selection : Option (List Bool)) : List Row :=
  values.zip (marks selection values.length)

theorem map_fst_rowsOf (h : Covers selection values.length) :
    (rowsOf values selection).map Prod.fst = values := by
  rw [rowsOf, List.map_fst_zip]
  rw [length_marks h]

theorem map_snd_rowsOf (h : Covers selection values.length) :
    (rowsOf values selection).map Prod.snd = marks selection values.length := by
  rw [rowsOf, List.map_snd_zip]
  rw [length_marks h]

theorem length_rowsOf (h : Covers selection values.length) :
    (rowsOf values selection).length = values.length := by
  rw [rowsOf, List.length_zip, length_marks h, Nat.min_self]

theorem needs_eq_any (rows : List Row) : needs rows = (rows.map Prod.snd).any id := by
  rw [needs, List.any_map]
  rfl

theorem answers_rowsOf (h : Covers selection values.length) :
    Answers selection 0 (rowsOf values selection) := by
  intro skip n hn hroom
  rw [length_rowsOf h] at hroom
  rw [needs_eq_any, List.map_take, List.map_drop, map_snd_rowsOf h, Nat.zero_add]
  cases selection with
  | none =>
      have hall : ((marks none values.length).drop skip).take n = List.replicate n true := by
        rw [marks, Option.getD_none, List.drop_replicate, List.take_replicate,
          Nat.min_eq_left (by omega)]
      have hany : (List.replicate n true).any id = true := by
        rw [List.any_eq_true]
        exact ⟨true, List.mem_replicate.mpr ⟨by omega, rfl⟩, rfl⟩
      rw [hall, hany]
      rfl
  | some sel =>
      have hlen := h sel rfl
      exact if_pos (by omega)

theorem needs_chunk (hpos : 0 < blockSize) (h : Covers selection values.length) (k : ℕ) :
    needs (chunk blockSize (rowsOf values selection) k) = true ↔
      ∃ j, j < values.length ∧ j / blockSize = k ∧ Selected selection j := by
  rw [needs, List.any_eq_true]
  constructor
  · intro ⟨row, hrow, hmark⟩
    obtain ⟨j, hj, hget⟩ := (mem_chunk hpos).mp hrow
    have hlt : j < values.length := by
      rw [← length_rowsOf h]
      exact (List.getElem?_eq_some_iff.mp hget).1
    refine ⟨j, hlt, hj, (marks_eq_true hlt).mp ?_⟩
    rw [← map_snd_rowsOf h, List.getElem?_map, hget, Option.map_some, hmark]
  · intro ⟨j, hlt, hj, hsel⟩
    have hmark := (marks_eq_true hlt).mpr hsel
    rw [← map_snd_rowsOf h, List.getElem?_map, Option.map_eq_some_iff] at hmark
    obtain ⟨row, hget, htrue⟩ := hmark
    exact ⟨row, (mem_chunk hpos).mpr ⟨j, hj, hget⟩, htrue⟩

structure SelectiveRead (values : List (List UInt8)) (blockSize : ℕ)
    (selection : Option (List Bool)) (buf : List UInt8) (ranges : List (ℕ × ℕ)) : Prop where
  rows : ranges.length = values.length
  inside : ∀ r ∈ ranges, r.1 + r.2 ≤ buf.length
  selected : ∀ i s, values[i]? = some s → Selected selection i →
    ∃ r, ranges[i]? = some r ∧ slice buf r.1 (r.1 + r.2) = some s
  skipped : ∀ i < values.length,
    (∀ j, j / blockSize = i / blockSize → ¬ Selected selection j) → ranges[i]? = some (0, 0)

theorem ReadsAs.inside {buf : List UInt8} {row : List UInt8 × Bool} {range : ℕ × ℕ}
    (h : ReadsAs buf row range) : range.1 + range.2 ≤ buf.length := by
  unfold ReadsAs at h
  split at h
  · unfold slice at h
    split at h
    · next hin => exact hin.2
    · exact absurd h (by simp)
  · rw [h]
    exact Nat.zero_le _

/-- Ranges that read as the marked rows are what the reader owes. -/
theorem selectiveRead_of_forall₂ (hpos : 0 < blockSize) (hcov : Covers selection values.length)
    {buf : List UInt8} {ranges : List (ℕ × ℕ)}
    (h : List.Forall₂ (ReadsAs buf) (markRows (chunks blockSize (rowsOf values selection)))
      ranges) : SelectiveRead values blockSize selection buf ranges := by
  have hmarked : ∀ i, (markRows (chunks blockSize (rowsOf values selection)))[i]? =
      (rowsOf values selection)[i]?.map fun row =>
        (row.1, needs (chunk blockSize (rowsOf values selection) (i / blockSize))) := fun i =>
    getElem?_flatMap_chunks hpos (fun (c : List Row) (row : Row) => (row.1, needs c)) _ i
  have hlen : ranges.length = values.length := by
    have hmark : (markRows (chunks blockSize (rowsOf values selection))).length =
        values.length := by
      rw [markRows, length_flatMap_chunks hpos (fun (c : List Row) (row : Row) => (row.1, needs c)),
        length_rowsOf hcov]
    rw [← h.length_eq, hmark]
  have hrow : ∀ i s, values[i]? = some s → ∃ r, ranges[i]? = some r ∧ ReadsAs buf
      (s, needs (chunk blockSize (rowsOf values selection) (i / blockSize))) r := by
    intro i s hs
    apply forall₂_getElem? h
    rw [← map_fst_rowsOf hcov, List.getElem?_map, Option.map_eq_some_iff] at hs
    obtain ⟨row, hget, hsame⟩ := hs
    rw [hmarked i, hget, Option.map_some, hsame]
  constructor
  · exact hlen
  · intro r hr
    obtain ⟨i, hi⟩ := List.mem_iff_getElem?.mp hr
    have hlt : i < values.length := hlen ▸ (List.getElem?_eq_some_iff.mp hi).1
    obtain ⟨r', hr', hread⟩ := hrow i values[i] (List.getElem?_eq_getElem hlt)
    rw [Option.some.inj (hi.symm.trans hr')]
    exact hread.inside
  · intro i s hs hsel
    have hlt : i < values.length := (List.getElem?_eq_some_iff.mp hs).1
    obtain ⟨r, hr, hread⟩ := hrow i s hs
    have hneed := (needs_chunk hpos hcov (i / blockSize)).mpr ⟨i, hlt, rfl, hsel⟩
    rw [ReadsAs, if_pos hneed] at hread
    exact ⟨r, hr, hread⟩
  · intro i hlt hnone
    obtain ⟨r, hr, hread⟩ := hrow i values[i] (List.getElem?_eq_getElem hlt)
    have hskip : ¬ needs (chunk blockSize (rowsOf values selection) (i / blockSize)) = true := by
      rw [needs_chunk hpos hcov]
      intro ⟨j, _, hj, hsel⟩
      exact hnone j hj hsel
    rw [ReadsAs, if_neg hskip] at hread
    rw [hr, hread]

end Rows

/-! ## Main results -/

section Encoded

variable {values : List (List UInt8)} {blockSize : ℕ}

theorem blockSize_encodeBlocked (hne : values ≠ []) (hfits : blockSize ≤ 65535) :
    leAt 2 (encodeBlocked lz4 values blockSize) 0 = some blockSize := by
  have hat := at_zero (encodeBlocked lz4 values blockSize)
  have hrest := hat
  rw [encodeBlocked_eq hne] at hrest
  rw [encodeBlocked_eq hne]
  exact hrest.leAt (by omega)

theorem numBlocks_encodeBlocked (hne : values ≠ [])
    (hblocks : divCeil values.length blockSize ≤ 65535) :
    leAt 2 (encodeBlocked lz4 values blockSize) 2 =
      some (divCeil values.length blockSize) := by
  have hat := at_zero (encodeBlocked lz4 values blockSize)
  have hrest := hat
  rw [encodeBlocked_eq hne] at hrest
  have hsecond := hrest.skip
  rw [length_toLe] at hsecond
  rw [encodeBlocked_eq hne]
  exact hsecond.leAt (by omega)

theorem short_of_chunks (hpos : 0 < blockSize)
    (hraw : ∀ c ∈ chunks blockSize values, (pack c).length < 2 ^ 32) {s : List UInt8}
    (hs : s ∈ values) : s.length < 2 ^ 32 := by
  rw [← flatten_chunks hpos values, List.mem_flatten] at hs
  obtain ⟨c, hc, hmem⟩ := hs
  exact lt_of_le_of_lt (length_le_length_pack hmem) (hraw c hc)

/-- The selective reader on a column as it was written. -/
theorem decodeToRangesBlocked_spec (hlz4 : lz4.Inverts) (hpos : 0 < blockSize)
    (hfits : blockSize ≤ 65535) (hblocks : divCeil values.length blockSize ≤ 65535)
    (hsize : (encodeBlocked lz4 values blockSize).length < 2 ^ 32)
    (hraw : ∀ c ∈ chunks blockSize values, (pack c).length < 2 ^ 32)
    {selection : Option (List Bool)} (hcov : Covers selection values.length) :
    ∃ buf ranges, decodeToRangesBlocked lz4 (encodeBlocked lz4 values blockSize) values.length
        selection = some (buf, ranges) ∧ SelectiveRead values blockSize selection buf ranges := by
  have hvalues := map_fst_rowsOf hcov
  have hcount := length_rowsOf hcov
  have hshort : ∀ row ∈ rowsOf values selection, row.1.length < 2 ^ 32 := by
    intro row hrow
    apply short_of_chunks hpos hraw
    rw [← hvalues]
    exact List.mem_map_of_mem hrow
  refine ⟨neededRaw (chunks blockSize (rowsOf values selection)),
    neededRanges 0 (chunks blockSize (rowsOf values selection)), ?_, ?_⟩
  · by_cases hne : values = []
    · have hrows : rowsOf values selection = [] :=
        List.eq_nil_of_length_eq_zero (by rw [hcount, hne]; rfl)
      rw [hrows, chunks_nil hpos, decodeToRangesBlocked, if_pos (by rw [hne]; rfl)]
      rfl
    · have hstored : BlocksFrom lz4 (encodeBlocked lz4 values blockSize) 0
          ((chunks blockSize (rowsOf values selection)).map rowsRaw) := by
        have hfrom := blocksFrom_encodeBlocked hlz4 hpos hne hsize hraw
        conv at hfrom => arg 4; rw [← hvalues, chunks_map, List.map_map]
        exact hfrom
      have hnum : divCeil values.length blockSize =
          (chunks blockSize (rowsOf values selection)).length := by
        rw [length_chunks, hcount]
      have hfirst := sizeBlocks hpos hstored
        { blockNeeded := [], totalUncompressed := 0, globalRow := 0 }
        (show values.length = 0 + (rowsOf values selection).length by rw [hcount, Nat.zero_add])
        (answers_rowsOf hcov)
      have hsecond := fillBlocks hpos hstored hshort [] []
        (show values.length = 0 + (rowsOf values selection).length by rw [hcount, Nat.zero_add])
      simp only [List.nil_append, Nat.zero_add, List.length_nil, hcount] at hfirst hsecond
      rw [decodeToRangesBlocked, if_neg (by rwa [List.length_eq_zero_iff]),
        blockSize_encodeBlocked hne hfits, numBlocks_encodeBlocked hne hblocks, hnum]
      simp only [bind, Option.bind_some, List.range_eq_range', hfirst, hsecond]
      rfl
  · have hat : At (neededRaw (chunks blockSize (rowsOf values selection))) 0
        (neededRaw (chunks blockSize (rowsOf values selection)) ++ []) := by
      rw [List.append_nil]
      exact at_zero _
    apply selectiveRead_of_forall₂ hpos hcov
    apply forall₂_neededRanges _ hat
    intro rows hrows row hrow
    apply hshort row
    rw [← flatten_chunks hpos (rowsOf values selection)]
    exact List.mem_flatten_of_mem hrows hrow

/-- The full reader. -/
theorem decodeBlocked_spec (hlz4 : lz4.Inverts) (texts : List (List Char)) (hpos : 0 < blockSize)
    (hblocks : divCeil texts.length blockSize ≤ 65535)
    (hsize : (encodeBlocked lz4 (texts.map utf8Bytes) blockSize).length < 2 ^ 32)
    (hraw : ∀ c ∈ chunks blockSize (texts.map utf8Bytes), (pack c).length < 2 ^ 32) :
    decodeBlocked lz4 (encodeBlocked lz4 (texts.map utf8Bytes) blockSize) texts.length =
      some texts := by
  by_cases hne : texts = []
  · rw [hne]
    rfl
  · have hbytes : texts.map utf8Bytes ≠ [] := by rwa [ne_eq, List.map_eq_nil_iff]
    have hstored := blocksFrom_encodeBlocked hlz4 hpos hbytes hsize hraw
    have hnum : divCeil texts.length blockSize =
        ((chunks blockSize (texts.map utf8Bytes)).map pack).length := by
      rw [List.length_map, length_chunks, List.length_map]
    have hfold := decompressBlocks hstored []
    have hsizes : (((chunks blockSize (texts.map utf8Bytes)).map pack).map List.length).sum =
        ((chunks blockSize (texts.map utf8Bytes)).map pack).flatten.length :=
      List.length_flatten.symm
    have hflat : ((chunks blockSize (texts.map utf8Bytes)).map pack).flatten =
        pack (texts.map utf8Bytes) := by
      rw [pack_flatten, flatten_chunks hpos]
    have hread := readStrings_pack (fun s hs => short_of_chunks hpos hraw hs)
      (at_append [] (pack (texts.map utf8Bytes) ++ []))
    rw [List.nil_append, List.append_nil, List.length_nil] at hread
    simp only [List.nil_append, List.length_nil] at hfold
    have hcount : leAt 2 (encodeBlocked lz4 (texts.map utf8Bytes) blockSize) 2 = _ :=
      numBlocks_encodeBlocked hbytes
        (show divCeil (texts.map utf8Bytes).length blockSize ≤ 65535 by rwa [List.length_map])
    rw [List.length_map, hnum] at hcount
    rw [decodeBlocked, if_neg (by rwa [List.length_eq_zero_iff]), hcount]
    simp only [bind, Option.bind_some, List.range_eq_range', blockSizes hstored, hsizes, hfold]
    rw [hflat]
    exact hread

end Encoded

/-- On a blocked column as it was written, the full reader returns the strings, and the
selective reader every selected row's bytes, for any selection and for none.  The sizes are those
of the format's 32-bit fields: the column's, and each chunk's before compression. -/
theorem blocked_readers_agree (hlz4 : lz4.Inverts) (texts : List (List Char)) {blockSize : ℕ}
    (hpos : 1 ≤ blockSize) (hfits : blockSize ≤ 65535)
    (hblocks : divCeil texts.length blockSize ≤ 65535)
    (hsize : (encodeBlocked lz4 (texts.map utf8Bytes) blockSize).length < 2 ^ 32)
    (hraw : ∀ c ∈ chunks blockSize (texts.map utf8Bytes), (pack c).length < 2 ^ 32) :
    decodeBlocked lz4 (encodeBlocked lz4 (texts.map utf8Bytes) blockSize) texts.length =
        some texts ∧
      ∀ selection, Covers selection texts.length → ∃ buf ranges,
        decodeToRangesBlocked lz4 (encodeBlocked lz4 (texts.map utf8Bytes) blockSize)
            texts.length selection = some (buf, ranges) ∧
          SelectiveRead (texts.map utf8Bytes) blockSize selection buf ranges := by
  constructor
  · exact decodeBlocked_spec hlz4 texts hpos hblocks hsize hraw
  · intro selection hcov
    have hlen : (texts.map utf8Bytes).length = texts.length := List.length_map utf8Bytes
    rw [← hlen] at hcov hblocks ⊢
    exact decodeToRangesBlocked_spec hlz4 hpos hfits hblocks hsize hraw hcov

/-- Three rows in two blocks, the second of them skipped. -/
theorem blocked_readers_agree_on_three_rows :
    decodeBlocked Literals.lz4
        (encodeBlocked Literals.lz4 ([['h', 'i'], [], ['x']].map utf8Bytes) 2) 3 =
          some [['h', 'i'], [], ['x']] ∧
      ∃ buf ranges, decodeToRangesBlocked Literals.lz4
          (encodeBlocked Literals.lz4 ([['h', 'i'], [], ['x']].map utf8Bytes) 2) 3
            (some [true, false, false]) = some (buf, ranges) ∧
        SelectiveRead ([['h', 'i'], [], ['x']].map utf8Bytes) 2 (some [true, false, false]) buf
          ranges := by
  have hread := blocked_readers_agree Literals.lz4_inverts [['h', 'i'], [], ['x']]
    (show 1 ≤ 2 by decide) (by decide) (by decide) (by decide) (by decide)
  exact ⟨hread.1, hread.2 (some [true, false, false]) fun sel hsel => by cases hsel; rfl⟩

end DeltaX.Codec.Lz4
