import DeltaX.Support.Wildcard
/-!
# UTF-8 as a spelling

A character is spelled by its UTF-8 bytes.  The first byte of a spelling is never
a later one, and a byte below 128 is the whole spelling of one character.
-/

namespace DeltaX.Support.Utf8

open Wildcard

def utf8Bytes (text : List Char) : List UInt8 := text.flatMap String.utf8EncodeChar

@[simp] theorem utf8Bytes_nil : utf8Bytes [] = [] := rfl

@[simp] theorem utf8Bytes_cons (c : Char) (text : List Char) :
    utf8Bytes (c :: text) = String.utf8EncodeChar c ++ utf8Bytes text := rfl

@[simp] theorem utf8Bytes_append (s t : List Char) :
    utf8Bytes (s ++ t) = utf8Bytes s ++ utf8Bytes t := List.flatMap_append

theorem utf8EncodeChar_ne_nil (c : Char) : String.utf8EncodeChar c ≠ [] := by
  apply List.ne_nil_of_length_pos
  rw [String.length_utf8EncodeChar]
  exact c.utf8Size_pos

/-- The first character can be read off the bytes. -/
theorem utf8EncodeChar_cancel {a b : Char} {x y : List UInt8}
    (h : String.utf8EncodeChar a ++ x = String.utf8EncodeChar b ++ y) : a = b := by
  have hread : ∀ (c : Char) (rest : List UInt8),
      ByteArray.utf8DecodeChar? (String.utf8EncodeChar c ++ rest).toByteArray 0 = some c := by
    intro c rest
    rw [List.toByteArray_append]
    exact ByteArray.utf8DecodeChar?_utf8EncodeChar_append
  have ha := hread a x
  rw [h, hread b y] at ha
  exact (Option.some.inj ha).symm

theorem spelling : Spelling String.utf8EncodeChar UInt8.IsUTF8FirstByte where
  word c := by
    obtain ⟨b, tail, hword⟩ := List.exists_cons_of_ne_nil (utf8EncodeChar_ne_nil c)
    have hlead : ∀ i (hi : i < (b :: tail).length),
        (b :: tail)[i].IsUTF8FirstByte ↔ i = 0 := by
      rw [← hword]
      intro i hi
      exact UInt8.isUTF8FirstByte_getElem_utf8EncodeChar
    refine ⟨b, tail, hword, (hlead 0 (by simp)).mpr rfl, ?_⟩
    intro d hd hfirst
    obtain ⟨i, hi, rfl⟩ := List.getElem_of_mem hd
    exact absurd ((hlead (i + 1) (by simpa using hi)).mp (by simpa using hfirst)) (by omega)
  cancel _ _ _ _ h := utf8EncodeChar_cancel h

theorem utf8EncodeChar_of_lt {c : Char} (h : c.toNat < 128) :
    String.utf8EncodeChar c = [UInt8.ofNat c.toNat] := by
  have hle : c.val.toNat ≤ 127 := by
    unfold Char.toNat at h
    omega
  rw [String.utf8EncodeChar]
  exact if_pos hle

/-- A byte below 128 spells a character alone. -/
theorem toNat_eq_of_mem {c : Char} {b : UInt8} (hb : b ∈ String.utf8EncodeChar c)
    (hlt : b.toNat < 128) : c.toNat = b.toNat := by
  have hval : c.toNat = c.val.toNat := rfl
  simp only [String.utf8EncodeChar] at hb
  -- every other byte has its top bit set
  split_ifs at hb <;> simp only [List.mem_cons, List.not_mem_nil, or_false] at hb
  · rw [hb, UInt8.toNat_ofNat', hval]
    omega
  · rcases hb with rfl | rfl <;> rw [UInt8.toNat_ofNat'] at hlt <;> omega
  · rcases hb with rfl | rfl | rfl <;> rw [UInt8.toNat_ofNat'] at hlt <;> omega
  · rcases hb with rfl | rfl | rfl | rfl <;> rw [UInt8.toNat_ofNat'] at hlt <;> omega

theorem utf8Bytes_injective : Function.Injective utf8Bytes := by
  intro s t h
  induction s generalizing t with
  | nil => exact (spelling.flatMap_eq_nil.mp h.symm).symm
  | cons c s ih =>
      rcases t with - | ⟨d, t⟩
      · exact spelling.flatMap_eq_nil.mp h
      · rw [utf8Bytes_cons, utf8Bytes_cons] at h
        obtain rfl := utf8EncodeChar_cancel h
        rw [ih (List.append_cancel_left h)]

/-- `String::from_utf8`. -/
def fromUtf8 (bytes : List UInt8) : Option (List Char) :=
  bytes.toByteArray.utf8Decode?.map Array.toList

theorem fromUtf8_utf8Bytes (text : List Char) : fromUtf8 (utf8Bytes text) = some text := by
  have hdecode : (utf8Bytes text).toByteArray.utf8Decode? = some text.toArray :=
    List.utf8Decode?_utf8Encode
  rw [fromUtf8, hdecode]
  rfl

end DeltaX.Support.Utf8
