import DeltaX.Codec.CompressionType
import Mathlib.Data.List.Basic
/-!
# Zigzag and variable-length integers

A signed 64-bit difference becomes an unsigned word with its sign in the lowest bit, and the
word becomes one to ten bytes of seven bits, the lowest first, all but the last with their high
bit set.
-/

namespace DeltaX.Codec.Varint

/-- `((v << 1) ^ (v >> 63)) as u64`. -/
def zigzagEncode (v : BitVec 64) : BitVec 64 := v <<< 1 ^^^ v.sshiftRight 63

/-- `((v >> 1) as i64) ^ (-((v & 1) as i64))`. -/
def zigzagDecode (v : BitVec 64) : BitVec 64 := v >>> 1 ^^^ -(v &&& 1#64)

/-- The loop of `write_varint`; ten rounds empty any word. -/
def writeLoop : ℕ → BitVec 64 → List Byte
  | 0, _ => []
  | fuel + 1, v =>
      let byte : Byte := (v &&& 0x7F#64).setWidth 8
      let v := v >>> 7
      if v = 0#64 then [byte] else (byte ||| 0x80#8) :: writeLoop fuel v

def writeVarint (v : BitVec 64) : List Byte := writeLoop 10 v

/-- The seven bits of a byte, at their place; a shift past the word wraps. -/
def groupAt (byte : Byte) (shift : ℕ) : BitVec 64 :=
  (byte &&& 0x7F#8).setWidth 64 <<< (shift % 64)

def isLast (byte : Byte) : Bool := byte &&& 0x80#8 == 0#8

/-- The loop of the reference reader: the value and the bytes it took. -/
def readVarintLoop : List Byte → BitVec 64 → ℕ → ℕ → BitVec 64 × ℕ
  | [], result, _, taken => (result, taken)
  | byte :: buf, result, shift, taken =>
      let result := result ||| groupAt byte shift
      if isLast byte then (result, taken + 1)
      else readVarintLoop buf result (shift + 7) (taken + 1)

def readVarint (buf : List Byte) : BitVec 64 × ℕ := readVarintLoop buf 0#64 0 0

/-- The loop of `read_varint_at`; an index past the data panics. -/
def readAtLoop (data : List Byte) : ℕ → ℕ → BitVec 64 → ℕ → Option (BitVec 64 × ℕ)
  | 0, _, _, _ => none
  | fuel + 1, o, result, shift => do
      let byte ← data[o]?
      let result := result ||| groupAt byte shift
      if isLast byte then some (result, o + 1)
      else readAtLoop data fuel (o + 1) result (shift + 7)

/-- The value at `offset`, and the offset past it. -/
def readVarintAt (data : List Byte) (offset : ℕ) : Option (BitVec 64 × ℕ) := do
  let b0 ← data[offset]?
  if isLast b0 then some ((b0 &&& 0x7F#8).setWidth 64, offset + 1)
  else readAtLoop data data.length (offset + 1) ((b0 &&& 0x7F#8).setWidth 64) 7

/-! ## Zigzag -/

theorem getLsbD_neg_one_bit (v : BitVec 64) {i : ℕ} (hi : i < 64) :
    (-(v &&& 1#64)).getLsbD i = v.getLsbD 0 := by
  rw [BitVec.and_one_eq_setWidth_ofBool_getLsbD]
  cases v.getLsbD 0 with
  | false => simp
  | true =>
      show (-(1#64)).getLsbD i = true
      rw [BitVec.neg_one_eq_allOnes, BitVec.getLsbD_allOnes]
      exact decide_eq_true hi

theorem zigzagDecode_zigzagEncode (v : BitVec 64) : zigzagDecode (zigzagEncode v) = v := by
  have hsign : (zigzagEncode v).getLsbD 0 = v.msb := by
    rw [zigzagEncode, BitVec.getLsbD_xor, BitVec.getLsbD_shiftLeft, BitVec.getLsbD_sshiftRight,
      BitVec.msb_eq_getLsbD_last]
    simp
  ext i hi
  rw [← BitVec.getLsbD_eq_getElem, ← BitVec.getLsbD_eq_getElem, zigzagDecode,
    BitVec.getLsbD_xor, getLsbD_neg_one_bit _ hi, hsign, BitVec.getLsbD_ushiftRight,
    zigzagEncode, BitVec.getLsbD_xor, BitVec.getLsbD_shiftLeft, BitVec.getLsbD_sshiftRight]
  have hback : 1 + i - 1 = i := by omega
  by_cases htop : i = 63
  · subst htop
    rw [BitVec.msb_eq_getLsbD_last]
    simp
  · have hin : 1 + i < 64 := by omega
    have hshift : ¬ 63 + (1 + i) < 64 := by omega
    simp only [hin, hback, hshift, show ¬ 1 + i < 1 by omega, show ¬ 64 ≤ 1 + i by omega,
      decide_true, decide_false, Bool.not_false, Bool.true_and, if_false]
    rw [Bool.xor_assoc, Bool.xor_self, Bool.xor_false]

/-! ## What one byte carries -/

/-- A written byte ends the number or continues it, and carries its seven bits. -/
theorem isLast_group (v : BitVec 64) :
    isLast ((v &&& 0x7F#64).setWidth 8) = true ∧
      isLast ((v &&& 0x7F#64).setWidth 8 ||| 0x80#8) = false := by
  have hbit : ∀ b : Byte, isLast b = !b.getLsbD 7 := by decide
  rw [hbit, hbit, BitVec.getLsbD_or, BitVec.getLsbD_setWidth, BitVec.getLsbD_and]
  simp

theorem getLsbD_seven (i : ℕ) : (0x7F#64).getLsbD i = decide (i < 7) := by
  show (127 : ℕ).testBit i = decide (i < 7)
  rw [show 127 = 2 ^ 7 - 1 from rfl, Nat.testBit_two_pow_sub_one]

theorem getLsbD_seven_byte (i : ℕ) : (0x7F#8).getLsbD i = decide (i < 7) := by
  show (127 : ℕ).testBit i = decide (i < 7)
  rw [show 127 = 2 ^ 7 - 1 from rfl, Nat.testBit_two_pow_sub_one]

theorem groupAt_group (v : BitVec 64) (flag : Byte) (hflag : flag &&& 0x7F#8 = 0#8)
    {shift : ℕ} (hshift : shift < 64) :
    groupAt ((v &&& 0x7F#64).setWidth 8 ||| flag) shift = (v &&& 0x7F#64) <<< shift := by
  have hbyte : (((v &&& 0x7F#64).setWidth 8 ||| flag) &&& 0x7F#8).setWidth 64 =
      v &&& 0x7F#64 := by
    rw [BitVec.and_comm, BitVec.and_or_distrib_left, BitVec.and_comm _ flag, hflag,
      BitVec.or_zero]
    ext i hi
    rw [← BitVec.getLsbD_eq_getElem, ← BitVec.getLsbD_eq_getElem, BitVec.getLsbD_setWidth,
      BitVec.getLsbD_and, BitVec.getLsbD_setWidth, BitVec.getLsbD_and, getLsbD_seven,
      getLsbD_seven_byte]
    by_cases h7 : i < 7
    · simp only [h7, hi, show i < 8 by omega, decide_true, Bool.true_and, Bool.and_true]
    · simp only [h7, decide_false, Bool.and_false]
  rw [groupAt, hbyte, Nat.mod_eq_of_lt hshift]

/-- The seven lowest bits and the others make the word. -/
theorem group_or_rest (v : BitVec 64) (shift : ℕ) :
    (v &&& 0x7F#64) <<< shift ||| v >>> 7 <<< (shift + 7) = v <<< shift := by
  ext i hi
  simp only [← BitVec.getLsbD_eq_getElem, BitVec.getLsbD_or, BitVec.getLsbD_shiftLeft,
    BitVec.getLsbD_and, BitVec.getLsbD_ushiftRight, getLsbD_seven]
  by_cases hlow : i < shift
  · simp only [hi, hlow, show i < shift + 7 by omega, decide_true, Bool.not_true,
      Bool.and_false, Bool.false_and, Bool.or_false]
  · by_cases hgroup : i < shift + 7
    · simp only [hi, hlow, hgroup, show i - shift < 7 by omega, decide_true, decide_false,
        Bool.not_true, Bool.not_false, Bool.and_true, Bool.true_and, Bool.and_false,
        Bool.false_and, Bool.or_false]
    · have hback : 7 + (i - (shift + 7)) = i - shift := by omega
      simp only [hi, hlow, hgroup, hback, show ¬ i - shift < 7 by omega, decide_true,
        decide_false, Bool.not_false, Bool.true_and, Bool.and_false, Bool.false_or]

/-! ## Reading back -/

/-- The fast path is the loop's first round. -/
theorem readVarintAt_eq (data : List Byte) (offset : ℕ) :
    readVarintAt data offset = readAtLoop data (data.length + 1) offset 0#64 0 := by
  have hfirst : ∀ b : Byte, 0#64 ||| groupAt b 0 = (b &&& 0x7F#8).setWidth 64 := by
    intro b
    rw [groupAt, Nat.zero_mod, BitVec.shiftLeft_zero, BitVec.zero_or]
  cases hbyte : data[offset]? with
  | none => simp only [readVarintAt, readAtLoop, hbyte, bind, Option.bind]
  | some b0 =>
      simp only [readVarintAt, readAtLoop, hbyte, bind, Option.bind, hfirst, Nat.zero_add]

/-- Where the fast reader returns, the reference reader returns the same, having taken the same
bytes. -/
theorem readVarintLoop_of_readAtLoop {data : List Byte} (fuel taken : ℕ) {o shift : ℕ}
    {result v : BitVec 64} {o' : ℕ} (hrun : readAtLoop data fuel o result shift = some (v, o')) :
    o < o' ∧ readVarintLoop (data.drop o) result shift taken = (v, taken + (o' - o)) := by
  induction fuel generalizing taken o result shift with
  | zero => exact absurd hrun (by simp [readAtLoop])
  | succ fuel ih =>
      cases hbyte : data[o]? with
      | none =>
          simp only [readAtLoop, hbyte, bind, Option.bind] at hrun
          exact absurd hrun (by simp)
      | some byte =>
          obtain ⟨hlt, hget⟩ := List.getElem?_eq_some_iff.mp hbyte
          simp only [readAtLoop, hbyte, bind, Option.bind] at hrun
          rw [List.drop_eq_getElem_cons hlt, hget, readVarintLoop]
          by_cases hlast : isLast byte = true
          · rw [if_pos hlast] at hrun ⊢
            have hpair := Prod.mk.inj (Option.some.inj hrun)
            refine ⟨by omega, Prod.ext hpair.1 ?_⟩
            show taken + 1 = taken + (o' - o)
            omega
          · rw [if_neg hlast] at hrun ⊢
            obtain ⟨hend, hsame⟩ := ih (taken + 1) hrun
            refine ⟨by omega, hsame.trans (Prod.ext rfl ?_)⟩
            show taken + 1 + (o' - (o + 1)) = taken + (o' - o)
            omega

theorem readVarint_of_readVarintAt {data : List Byte} {offset o' : ℕ} {v : BitVec 64}
    (hrun : readVarintAt data offset = some (v, o')) :
    readVarint (data.drop offset) = (v, o' - offset) := by
  rw [readVarintAt_eq] at hrun
  have hsame := (readVarintLoop_of_readAtLoop _ 0 hrun).2
  rwa [Nat.zero_add] at hsame

/-- In front of a written word the loop reads the word, and stops behind it. -/
theorem readAtLoop_writeLoop {data rest : List Byte} (rounds : ℕ) (fuel shift : ℕ) {o : ℕ}
    {v : BitVec 64} (result : BitVec 64) (hfit : v.toNat < 2 ^ (7 * rounds))
    (hrounds : 0 < rounds) (hshift : shift + 7 * rounds = 70)
    (hfuel : (writeLoop rounds v).length ≤ fuel)
    (hdata : data.drop o = writeLoop rounds v ++ rest) :
    readAtLoop data fuel o result shift =
      some (result ||| v <<< shift, o + (writeLoop rounds v).length) := by
  induction rounds generalizing fuel shift o v result with
  | zero => omega
  | succ rounds ih =>
      have hnext : (v >>> 7).toNat < 2 ^ (7 * rounds) := by
        rw [BitVec.toNat_ushiftRight, Nat.shiftRight_eq_div_pow,
          Nat.div_lt_iff_lt_mul (by decide), ← pow_add]
        exact hfit
      by_cases hdone : v >>> 7 = 0#64
      · have hcode : writeLoop (rounds + 1) v = [(v &&& 0x7F#64).setWidth 8] := by
          simp only [writeLoop, if_pos hdone]
        rw [hcode] at hdata hfuel ⊢
        obtain ⟨fuel, rfl⟩ := Nat.exists_eq_succ_of_ne_zero (show fuel ≠ 0 by
          rw [List.length_singleton] at hfuel
          omega)
        have hbyte : data[o]? = some ((v &&& 0x7F#64).setWidth 8) := by
          have hhead := congrArg (fun bytes => bytes[0]?) hdata
          simpa using hhead
        have hgroup := groupAt_group v 0#8 (by decide) (show shift < 64 by omega)
        rw [BitVec.or_zero] at hgroup
        have hword : (v &&& 0x7F#64) <<< shift = v <<< shift := by
          rw [← group_or_rest v shift, hdone, BitVec.zero_shiftLeft, BitVec.or_zero]
        simp only [readAtLoop, hbyte, bind, Option.bind, (isLast_group v).1, if_true, hgroup,
          hword, List.length_singleton]
      · have hcode : writeLoop (rounds + 1) v =
            ((v &&& 0x7F#64).setWidth 8 ||| 0x80#8) :: writeLoop rounds (v >>> 7) := by
          simp only [writeLoop, if_neg hdone]
        rw [hcode] at hdata hfuel ⊢
        rw [List.length_cons] at hfuel
        obtain ⟨fuel, rfl⟩ := Nat.exists_eq_succ_of_ne_zero (show fuel ≠ 0 by omega)
        have hbyte : data[o]? = some ((v &&& 0x7F#64).setWidth 8 ||| 0x80#8) := by
          have hhead := congrArg (fun bytes => bytes[0]?) hdata
          simpa using hhead
        have htail : data.drop (o + 1) = writeLoop rounds (v >>> 7) ++ rest := by
          rw [← List.drop_drop, hdata]
          rfl
        have hmore : 0 < rounds := by
          by_contra hzero
          have hrounds' : rounds = 0 := by omega
          rw [hrounds', Nat.mul_zero, pow_zero] at hnext
          exact hdone (BitVec.eq_of_toNat_eq (by rw [BitVec.toNat_zero]; omega))
        have hgroup := groupAt_group v 0x80#8 (by decide) (show shift < 64 by omega)
        have hrest := ih fuel (shift + 7) (result ||| (v &&& 0x7F#64) <<< shift) hnext hmore
          (by omega) (by omega) htail
        simp only [readAtLoop, hbyte, bind, Option.bind, (isLast_group v).2, Bool.false_eq_true,
          if_false, hgroup, hrest, List.length_cons]
        rw [BitVec.or_assoc, group_or_rest]
        congr 2
        omega

/-- A written word is read back and exactly its bytes are consumed, whatever follows. -/
theorem readVarintAt_writeVarint {data rest : List Byte} {offset : ℕ} {v : BitVec 64}
    (hdata : data.drop offset = writeVarint v ++ rest) :
    readVarintAt data offset = some (v, offset + (writeVarint v).length) := by
  have hfuel : (writeVarint v).length ≤ data.length + 1 := by
    have hlen := congrArg List.length hdata
    rw [List.length_drop, List.length_append] at hlen
    omega
  have hfit : v.toNat < 2 ^ (7 * 10) := lt_trans v.isLt (by decide)
  rw [readVarintAt_eq,
    readAtLoop_writeLoop 10 _ 0 0#64 hfit (by decide) (by decide) hfuel hdata]
  rw [BitVec.zero_or, BitVec.shiftLeft_zero]
  rfl

theorem readVarint_writeVarint (v : BitVec 64) (rest : List Byte) :
    readVarint (writeVarint v ++ rest) = (v, (writeVarint v).length) := by
  have hrun := readVarintAt_writeVarint (show (writeVarint v ++ rest).drop 0 = _ from rfl)
  simpa using readVarint_of_readVarintAt hrun

end DeltaX.Codec.Varint
