import DeltaX.Codec.CompressedColumn
/-!
# Boolean columns and counts of rows

Booleans take a bit each, the first one the lowest bit of the first byte.  The NULL bitmap
is laid out in the same way; the readers count its clear bits before they decode a column.
-/

namespace DeltaX.Codec.BooleanBitmap

open Support.ByteBits

def truePositions (values : List Bool) : List ℕ :=
  (List.range values.length).filter fun i => values[i]?.getD false

def encode (values : List Bool) : Bytes :=
  setBits (List.replicate ((values.length + 7) / 8) 0#8) (truePositions values)

def bitAt (data : Bytes) (i : ℕ) : Option Bool := do
  let byte ← data[i / 8]?
  return decide ((byte >>> (i % 8)) &&& 1#8 = 1#8)

def decode (data : Bytes) (count : ℕ) : Option (List Bool) := (List.range count).mapM (bitAt data)

def countNonNull (nullBitmap : Bytes) (totalCount : ℕ) : Option ℕ :=
  if nullBitmap = [] then some totalCount
  else do
    let nulls ← (List.range totalCount).mapM (bitAt nullBitmap)
    return totalCount - nulls.countP id

/-! ## Reading back -/

theorem bitAt_eq_testBit {data : Bytes} {i : ℕ} (hi : i / 8 < data.length) :
    bitAt data i = some (testBit data i) := by
  have hiff := shiftRight_and_one_iff data[i / 8] (i % 8)
  rw [bitAt, List.getElem?_eq_getElem hi, testBit_eq, List.getElem?_eq_getElem hi,
    Option.getD_some]
  simp only [bind, Option.bind, hiff, Bool.decide_eq_true]
  rfl

theorem mapM_bitAt {data : Bytes} {f : ℕ → Bool} {count : ℕ} (hlen : (count + 7) / 8 ≤ data.length)
    (hbits : ∀ i < count, testBit data i = f i) :
    (List.range count).mapM (bitAt data) = some ((List.range count).map f) := by
  have hall : ∀ i ∈ List.range count, bitAt data i = some (f i) := by
    intro i hi
    have hlt := List.mem_range.mp hi
    rw [bitAt_eq_testBit (by omega), hbits i hlt]
  generalize List.range count = rows at hall
  induction rows with
  | nil => rfl
  | cons i rows ih =>
      have hrest : ∀ j ∈ rows, bitAt data j = some (f j) := fun j hj =>
        hall j (List.mem_cons_of_mem i hj)
      rw [List.mapM_cons, hall i List.mem_cons_self, ih hrest]
      rfl

theorem testBit_encode (values : List Bool) {i : ℕ} (hi : i < values.length) :
    testBit (encode values) i = values[i] := by
  have hroom : i < 8 * ((values.length + 7) / 8) := by omega
  have hmem : i ∈ truePositions values ↔ values[i] = true := by
    rw [truePositions, List.mem_filter, List.mem_range, List.getElem?_eq_getElem hi,
      Option.getD_some]
    exact and_iff_right hi
  rw [encode, testBit_setBits, testBit_replicate_zero, List.length_replicate, Bool.false_or]
  rw [Bool.eq_iff_iff, decide_eq_true_iff, hmem]
  exact and_iff_left hroom

theorem decode_encode (values : List Bool) : decode (encode values) values.length = some values := by
  have hbits : ∀ i < values.length, testBit (encode values) i = values[i]?.getD false := by
    intro i hi
    rw [testBit_encode values hi, List.getElem?_eq_getElem hi, Option.getD_some]
  rw [decode, mapM_bitAt (f := fun i => values[i]?.getD false) _ hbits]
  · congr 1
    apply List.ext_getElem
    · rw [List.length_map, List.length_range]
    · intro i hi hi'
      rw [List.getElem_map, List.getElem_range, List.getElem?_eq_getElem hi', Option.getD_some]
  · rw [encode, length_setBits, List.length_replicate]

/-! ## Columns with NULL rows -/

theorem countP_range_isNone {α : Type} (values : List (Option α)) :
    ((List.range values.length).map fun i => (values[i]?.getD none).isNone).countP id =
      values.countP Option.isNone := by
  have hmap : ((List.range values.length).map fun i => (values[i]?.getD none).isNone) =
      values.map Option.isNone := by
    apply List.ext_getElem
    · rw [List.length_map, List.length_map, List.length_range]
    · intro i hi hi'
      rw [List.length_map] at hi'
      rw [List.getElem_map, List.getElem_range, List.getElem_map, List.getElem?_eq_getElem hi',
        Option.getD_some]
  rw [hmap, List.countP_map]
  rfl

theorem countNonNull_extractNulls {α : Type} (values : List (Option α)) :
    countNonNull (extractNulls values).2 values.length = some values.reduceOption.length := by
  have hcount : values.reduceOption.length + values.countP Option.isNone = values.length := by
    rw [List.reduceOption_length_eq, ← List.countP_eq_length_filter,
      List.length_eq_countP_add_countP Option.isSome]
    congr 1
    apply List.countP_congr
    intro v _
    simp
  by_cases hany : values.any Option.isNone = true
  · have hlen : (extractNulls values).2.length = CompressedColumn.bitmapLen values.length := by
      simp [extractNulls, hany]
    have hne : (extractNulls values).2 ≠ [] := by
      intro hnil
      obtain ⟨v, hv, -⟩ := List.any_eq_true.mp hany
      have hpos : 0 < values.length := List.length_pos_of_mem hv
      rw [hnil, CompressedColumn.bitmapLen] at hlen
      simp only [List.length_nil] at hlen
      omega
    have hbits : ∀ i < values.length, testBit (extractNulls values).2 i =
        (values[i]?.getD none).isNone := by
      intro i hi
      obtain ⟨byte, hbyte, hiff⟩ := getLsbD_extractNulls hany hi
      rw [testBit_eq, hbyte, Option.getD_some, Bool.eq_iff_iff, hiff,
        List.getElem?_eq_getElem hi, Option.getD_some, Option.some.injEq,
        Option.isNone_iff_eq_none]
    rw [countNonNull, if_neg hne, mapM_bitAt hlen.ge hbits]
    simp only [bind, Option.bind, countP_range_isNone]
    show some (values.length - values.countP Option.isNone) = _
    congr 1
    omega
  · have hempty : (extractNulls values).2 = [] := by simp [extractNulls, hany]
    have hzero : values.countP Option.isNone = 0 := by
      rw [List.countP_eq_zero]
      exact fun v hv hnone => hany (List.any_eq_true.mpr ⟨v, hv, hnone⟩)
    rw [countNonNull, if_pos hempty]
    congr 1
    omega

/-- The bitmap knows which rows are NULL and nothing else. -/
theorem extractNulls_map {α β : Type} (f : α → β) (values : List (Option α)) :
    extractNulls (values.map (Option.map f)) =
      ((extractNulls values).1.map f, (extractNulls values).2) := by
  have hpositions : nullPositions (values.map (Option.map f)) = nullPositions values := by
    rw [nullPositions, nullPositions, List.length_map]
    apply List.filter_congr
    intro i _
    rw [List.getElem?_map]
    rcases values[i]? with _ | _ | v <;> rfl
  have hany : (values.map (Option.map f)).any Option.isNone = values.any Option.isNone := by
    rw [List.any_map]
    congr 1
    ext v
    cases v <;> rfl
  rw [extractNulls, extractNulls, hpositions, hany, List.length_map, List.reduceOption_map]

/-- Rendered values go back to the rows they came from. -/
theorem reinsertNulls_map {α β : Type} (f : α → β) (values : List (Option α)) :
    reinsertNulls (values.reduceOption.map f) (extractNulls values).2 values.length =
      some (values.map (Option.map f)) := by
  have hback := reinsertNulls_extractNulls (values.map (Option.map f))
  rw [extractNulls_map, List.length_map] at hback
  exact hback

end DeltaX.Codec.BooleanBitmap
