import DeltaX.Support.LittleEndian
import Mathlib.Data.Nat.Bitwise
/-!
# Cached selections

A selection is kept in the cache with its number of rows: as a mark when all rows or none
are selected, else with one bit a row in words of 64.  No selection stands for all rows.
-/

namespace DeltaX.Scan.CondCache

open Support.LittleEndian

inductive CachedSelection
  | allPass
  | nonePass
  | bitmap (sel : List Bool)
deriving DecidableEq, Repr

def CachedSelection.Selects (row : ℕ) : CachedSelection → Prop
  | allPass => True
  | nonePass => False
  | bitmap sel => sel[row]? = some true

/-! ## The codec -/

def payloadKind (selection : List Bool) : UInt8 :=
  if selection = [] ∨ selection.all id then 1
  else if selection.any id then 0
  else 2

/-- One row of the loop of `encode_payload`, over `(out, word, i)`. -/
def pushRow (acc : List UInt8 × ℕ × ℕ) (b : Bool) : List UInt8 × ℕ × ℕ :=
  let word := if b then acc.2.1 ||| 1 <<< (acc.2.2 % 64) else acc.2.1
  if acc.2.2 % 64 = 63 then (acc.1 ++ toLe 8 word, 0, acc.2.2 + 1)
  else (acc.1, word, acc.2.2 + 1)

/-- The words of `encode_payload`. -/
def packRows (selection : List Bool) (rowCount : ℕ) : List UInt8 :=
  let acc := selection.foldl pushRow ([], 0, 0)
  if rowCount % 64 = 0 then acc.1 else acc.1 ++ toLe 8 acc.2.1

def encodePayload (selection : List Bool) (rowCount : ℕ) : Option (List UInt8) :=
  if rowCount = 0 ∨ rowCount > 4294967295 then none
  else if selection ≠ [] ∧ selection.length ≠ rowCount then none
  else some ([0xC1, payloadKind selection, 0, 0] ++ (toLe 4 rowCount ++
    if payloadKind selection = 0 then packRows selection rowCount else []))

/-- The `w`-th word of some bytes. -/
def wordAt (bytes : List UInt8) (w : ℕ) : ℕ := ofLe ((bytes.drop (8 * w)).take 8)

/-- The rows of `decode_payload`. -/
def unpackRows (body : List UInt8) (rowCount : ℕ) : List Bool :=
  (List.range rowCount).map fun row => (wordAt body (row / 64)).testBit (row % 64)

def decodePayload (bytes : List UInt8) (expectedRowCount : ℕ) : Option CachedSelection :=
  if bytes.length < 8 ∨ bytes[0]? ≠ some (0xC1 : UInt8) then none
  else
    let rowCount := ofLe ((bytes.drop 4).take 4)
    if rowCount ≠ expectedRowCount then none
    else
      let kind := bytes[1]?
      if kind = some 1 then some .allPass
      else if kind = some 2 then some .nonePass
      else if kind = some 0 then
        let body := bytes.drop 8
        if body.length ≠ 8 * ((rowCount + 63) / 64) then none
        else some (.bitmap (unpackRows body rowCount))
      else none

/-! ## Words -/

theorem wordAt_append_left {bytes : List UInt8} {w : ℕ} (h : 8 * (w + 1) ≤ bytes.length)
    (more : List UInt8) : wordAt (bytes ++ more) w = wordAt bytes w := by
  rw [wordAt, wordAt, List.drop_append_of_le_length (by omega),
    List.take_append_of_le_length (by rw [List.length_drop]; omega)]

theorem wordAt_append_toLe {bytes : List UInt8} {w : ℕ} (h : bytes.length = 8 * w) {word : ℕ}
    (hword : word < 2 ^ 64) : wordAt (bytes ++ toLe 8 word) w = word := by
  rw [wordAt, ← h, List.drop_left, List.take_of_length_le (by rw [length_toLe]),
    ofLe_toLe (by omega)]

/-- The rows written so far: those of the full words, and those of the word begun. -/
structure Packed (done : List Bool) (acc : List UInt8 × ℕ × ℕ) : Prop where
  count : acc.2.2 = done.length
  length : acc.1.length = 8 * (done.length / 64)
  word_lt : acc.2.1 < 2 ^ (done.length % 64)
  full : ∀ j < done.length / 64 * 64,
    (wordAt acc.1 (j / 64)).testBit (j % 64) = done[j]?.getD false
  begun : ∀ j, done.length / 64 * 64 ≤ j → j < done.length →
    acc.2.1.testBit (j % 64) = done[j]?.getD false

theorem testBit_pushed {word k j : ℕ} (hword : word < 2 ^ k) (b : Bool) :
    (if b then word ||| 1 <<< k else word).testBit j = if j = k then b else word.testBit j := by
  have hclear : word.testBit k = false := Nat.testBit_lt_two_pow hword
  cases b with
  | false =>
      by_cases hjk : j = k
      · simp [hjk, hclear]
      · simp [hjk]
  | true =>
      rw [if_pos rfl, Nat.testBit_or, Nat.one_shiftLeft, Nat.testBit_two_pow]
      by_cases hjk : j = k
      · simp [hjk]
      · simp [hjk, Ne.symm hjk]

theorem pushed_lt {word k : ℕ} (hword : word < 2 ^ k) (b : Bool) :
    (if b then word ||| 1 <<< k else word) < 2 ^ (k + 1) := by
  have hwide : word < 2 ^ (k + 1) := hword.trans (Nat.pow_lt_pow_right (by decide) (by omega))
  cases b with
  | false => exact hwide
  | true =>
      rw [if_pos rfl, Nat.one_shiftLeft]
      exact Nat.or_lt_two_pow hwide (Nat.pow_lt_pow_right (by decide) (by omega))

/-- One more row is written. -/
theorem Packed.push {done : List Bool} {acc : List UInt8 × ℕ × ℕ} (h : Packed done acc) (b : Bool) :
    Packed (done ++ [b]) (pushRow acc b) := by
  obtain ⟨out, word, i⟩ := acc
  obtain ⟨rfl, hlength, hword, hfull, hbegun⟩ := h
  have hlen : (done ++ [b]).length = done.length + 1 := by
    rw [List.length_append, List.length_singleton]
  have hlt := pushed_lt hword b
  have hget : ∀ j, j < done.length → (done ++ [b])[j]?.getD false = done[j]?.getD false := by
    intro j hj
    rw [List.getElem?_append_left hj]
  have hlast : (done ++ [b])[done.length]?.getD false = b := by
    rw [List.getElem?_append_right (le_refl _), Nat.sub_self]
    rfl
  -- the word after the row, row by row
  have hbits : ∀ j, done.length / 64 * 64 ≤ j → j < done.length + 1 →
      (if b then word ||| 1 <<< (done.length % 64) else word).testBit (j % 64) =
        (done ++ [b])[j]?.getD false := by
    intro j hlo hhi
    rw [testBit_pushed hword]
    by_cases hj : j = done.length
    · rw [if_pos (by rw [hj]), hj, hlast]
    · rw [if_neg (by omega), hget j (by omega)]
      exact hbegun j hlo (by omega)
  by_cases hend : done.length % 64 = 63
  · have hdiv : (done.length + 1) / 64 = done.length / 64 + 1 := by omega
    have hmod : (done.length + 1) % 64 = 0 := by omega
    rw [hend] at hlt
    rw [pushRow, if_pos hend]
    refine ⟨hlen.symm, ?_, ?_, ?_, ?_⟩
    · rw [List.length_append, length_toLe, hlen, hdiv, hlength]
      omega
    · rw [hlen, hmod]
      exact Nat.one_pos
    · intro j hj
      rw [hlen, hdiv] at hj
      by_cases hold : j < done.length / 64 * 64
      · rw [wordAt_append_left (by rw [hlength]; omega), hget j (by omega)]
        exact hfull j hold
      · rw [show j / 64 = done.length / 64 by omega, wordAt_append_toLe hlength (by rw [hend]; exact hlt)]
        exact hbits j (by omega) (by omega)
    · intro j hlo hhi
      omega
  · have hdiv : (done.length + 1) / 64 = done.length / 64 := by omega
    have hmod : (done.length + 1) % 64 = done.length % 64 + 1 := by omega
    rw [pushRow, if_neg hend]
    refine ⟨hlen.symm, ?_, ?_, ?_, ?_⟩
    · rw [hlen, hdiv]
      exact hlength
    · rw [hlen, hmod]
      exact hlt
    · intro j hj
      rw [hlen, hdiv] at hj
      rw [hget j (by omega)]
      exact hfull j hj
    · intro j hlo hhi
      rw [hlen, hdiv] at hlo
      rw [hlen] at hhi
      exact hbits j hlo hhi

theorem packed_foldl (done selection : List Bool) {acc : List UInt8 × ℕ × ℕ} (h : Packed done acc) :
    Packed (done ++ selection) (selection.foldl pushRow acc) := by
  induction selection generalizing done acc with
  | nil => rwa [List.append_nil]
  | cons b selection ih =>
      have hstep := ih (done ++ [b]) (h.push b)
      rwa [List.append_assoc, List.singleton_append] at hstep

theorem packed_nil : Packed [] ([], 0, 0) := by
  refine ⟨rfl, rfl, by decide, ?_, ?_⟩
  · intro j hj
    cases hj
  · intro j _ hj
    cases hj

/-! ## Round trip -/

theorem unpackRows_packRows (selection : List Bool) :
    (packRows selection selection.length).length = 8 * ((selection.length + 63) / 64) ∧
      unpackRows (packRows selection selection.length) selection.length = selection := by
  have hpacked := packed_foldl [] selection packed_nil
  rw [List.nil_append] at hpacked
  unfold packRows
  generalize selection.foldl pushRow ([], 0, 0) = acc at hpacked
  obtain ⟨-, hlength, hword, hfull, hbegun⟩ := hpacked
  simp only
  have hword64 : acc.2.1 < 2 ^ 64 :=
    hword.trans (Nat.pow_lt_pow_right (by decide) (Nat.mod_lt _ (by decide)))
  have hrows : ∀ bytes : List UInt8, (∀ j < selection.length,
      (wordAt bytes (j / 64)).testBit (j % 64) = selection[j]?.getD false) →
        unpackRows bytes selection.length = selection := by
    intro bytes hbytes
    apply List.ext_getElem?
    intro j
    rw [unpackRows, List.getElem?_map]
    by_cases hj : j < selection.length
    · rw [List.getElem?_range hj, Option.map_some, hbytes j hj, List.getElem?_eq_getElem hj]
      rfl
    · rw [List.getElem?_eq_none (by rw [List.length_range]; omega),
        List.getElem?_eq_none (by omega)]
      rfl
  by_cases hend : selection.length % 64 = 0
  · rw [if_pos hend]
    exact ⟨by omega, hrows _ fun j hj => hfull j (by omega)⟩
  · rw [if_neg hend]
    constructor
    · rw [List.length_append, length_toLe]
      omega
    · apply hrows
      intro j hj
      by_cases hold : j < selection.length / 64 * 64
      · rw [wordAt_append_left (by omega)]
        exact hfull j hold
      · rw [show j / 64 = selection.length / 64 by omega, wordAt_append_toLe hlength hword64]
        exact hbegun j (by omega) hj

theorem encodePayload_eq_none_iff (selection : List Bool) (rowCount : ℕ) :
    encodePayload selection rowCount = none ↔ rowCount = 0 ∨ rowCount > 4294967295 ∨
      (selection ≠ [] ∧ selection.length ≠ rowCount) := by
  unfold encodePayload
  split_ifs with h h' <;> tauto

/-- A cached selection is read back as one with the same rows. -/
theorem decodePayload_encodePayload {selection : List Bool} {rowCount : ℕ} {bytes : List UInt8}
    (h : encodePayload selection rowCount = some bytes) :
    ∃ cached, decodePayload bytes rowCount = some cached ∧
      ∀ row < rowCount, (cached.Selects row ↔ selection = [] ∨ selection[row]? = some true) := by
  have hsome : ¬ encodePayload selection rowCount = none := by rw [h]; simp
  rw [encodePayload_eq_none_iff] at hsome
  obtain ⟨hpos, hmax, hlen⟩ : rowCount ≠ 0 ∧ ¬ rowCount > 4294967295 ∧
      ¬ (selection ≠ [] ∧ selection.length ≠ rowCount) := by tauto
  rw [encodePayload, if_neg (not_or.mpr ⟨hpos, hmax⟩), if_neg hlen] at h
  have hbytes := Option.some.inj h
  have hcount : ofLe ((bytes.drop 4).take 4) = rowCount := by
    rw [← hbytes]
    show ofLe ((toLe 4 rowCount ++ _).take 4) = rowCount
    rw [List.take_append_of_le_length (by rw [length_toLe]), List.take_of_length_le
      (by rw [length_toLe]), ofLe_toLe (by omega)]
  have hhead : ¬ (bytes.length < 8 ∨ bytes[0]? ≠ some (0xC1 : UInt8)) := by
    rw [← hbytes]
    simp
  have hkind : bytes[1]? = some (payloadKind selection) := by
    rw [← hbytes]
    rfl
  have hbody : bytes.drop 8 = if payloadKind selection = 0 then packRows selection rowCount else [] := by
    have hwidth : 8 = ([0xC1, payloadKind selection, 0, 0] ++ toLe 4 rowCount).length := by
      rw [List.length_append, length_toLe]
      rfl
    rw [← hbytes, ← List.append_assoc, hwidth, List.drop_left]
  rw [decodePayload, if_neg hhead]
  simp only [hcount, hkind, hbody, ne_eq, not_true_eq_false, if_false]
  by_cases hall : selection = [] ∨ selection.all id
  · have hk : payloadKind selection = 1 := if_pos hall
    rw [hk]
    refine ⟨.allPass, rfl, fun row hrow => iff_of_true trivial ?_⟩
    rcases hall with hnil | hall
    · exact Or.inl hnil
    · by_cases hnil : selection = []
      · exact Or.inl hnil
      · have hlt : row < selection.length := by
          have := not_and_not_right.mp hlen hnil
          omega
        rw [List.getElem?_eq_getElem hlt]
        exact Or.inr (congrArg some (List.all_eq_true.mp hall _ (List.getElem_mem hlt)))
  · obtain ⟨hne, hsomeOut⟩ := not_or.mp hall
    have hrows : selection.length = rowCount := not_and_not_right.mp hlen hne
    by_cases hany : selection.any id
    · have hk : payloadKind selection = 0 := by rw [payloadKind, if_neg hall, if_pos hany]
      obtain ⟨hwords, hback⟩ := unpackRows_packRows selection
      rw [hrows] at hwords hback
      rw [hk]
      refine ⟨.bitmap selection, ?_, fun row hrow => ?_⟩
      · simp [hwords, hback]
      · exact (or_iff_right hne).symm
    · have hk : payloadKind selection = 2 := by rw [payloadKind, if_neg hall, if_neg hany]
      rw [hk]
      refine ⟨.nonePass, rfl, fun row hrow => iff_of_false not_false ?_⟩
      rintro (hnil | hrow')
      · exact hne hnil
      · exact hany (List.any_eq_true.mpr ⟨true, List.mem_of_getElem? hrow', rfl⟩)

end DeltaX.Scan.CondCache
