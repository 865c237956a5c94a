import Mathlib.Data.List.Basic

/-!
# The bytes of a text

A text is stored and sent as its UTF-8 bytes (`utf8`). They can be read back
(`ofUtf8_utf8`), so that a text is determined by its bytes. They are the bytes of
its characters one after the other (`utf8_eq_flatMap`), and none of them is zero
unless one of the characters is (`zero_notMem_utf8`).
-/

namespace Lib

open List
open String hiding length_append toByteArray_append

/-- The UTF-8 bytes of a text. -/
def utf8 (s : String) : List UInt8 := s.toByteArray.data.toList

/-- The text with the given bytes, if they are valid UTF-8. -/
def ofUtf8 (bs : List UInt8) : Option String := fromUTF8? ⟨bs.toArray⟩

variable (s : String)

@[simp] theorem ofUtf8_utf8 : ofUtf8 (utf8 s) = some s := by
  rw [ofUtf8, utf8, fromUTF8?, dif_pos s.isValidUTF8]
  rfl

theorem utf8_of_ofUtf8 {bs : List UInt8} {s : String} (h : ofUtf8 bs = some s) : utf8 s = bs := by
  rw [ofUtf8, fromUTF8?] at h
  split at h
  · cases h
    rfl
  · cases h

theorem utf8_injective : Function.Injective utf8 := fun s t h => by
  have := congrArg ofUtf8 h
  rwa [ofUtf8_utf8, ofUtf8_utf8, Option.some_inj] at this

theorem utf8_ne_nil {s : String} (h : s ≠ "") : utf8 s ≠ [] :=
  fun h0 => h (utf8_injective (h0.trans rfl))

@[simp] theorem utf8_append (s t : String) : utf8 (s ++ t) = utf8 s ++ utf8 t := by
  rfl

theorem utf8_eq_flatMap : utf8 s = s.toList.flatMap utf8EncodeChar := by
  conv_lhs => rw [utf8, ← ofList_toList (s := s), toByteArray_ofList, utf8Encode]
  simp

@[simp] theorem utf8_singleton (c : Char) : utf8 (singleton c) = utf8EncodeChar c := by
  rw [utf8_eq_flatMap, toList_singleton, flatMap_singleton]

theorem utf8_join (l : List String) : utf8 (join l) = l.flatMap utf8 := by
  induction l with
  | nil => rfl
  | cons s l ih => rw [join_cons, utf8_append, ih, flatMap_cons]

theorem length_toList_le_utf8 : s.toList.length ≤ (utf8 s).length := by
  rw [utf8_eq_flatMap]
  induction s.toList with
  | nil => exact Nat.zero_le _
  | cons c cs ih =>
    have := c.utf8Size_pos
    rw [flatMap_cons, length_append, length_utf8EncodeChar, length_cons]
    omega

theorem zero_notMem_utf8EncodeChar {c : Char} (h : c ≠ '\x00') : 0 ∉ utf8EncodeChar c := by
  have hc : c.val.toNat ≠ 0 := fun h0 => h (Char.ext (UInt32.toNat_inj.1 h0))
  intro hm
  simp only [utf8EncodeChar] at hm
  split_ifs at hm <;>
    simp only [mem_cons, not_mem_nil, or_false, ← UInt8.toNat_inj, UInt8.toNat_ofNat',
      UInt8.toNat_zero] at hm <;>
    omega

theorem zero_notMem_utf8 {s : String} (h : '\x00' ∉ s.toList) : 0 ∉ utf8 s := by
  rw [utf8_eq_flatMap, mem_flatMap]
  rintro ⟨c, hc, h0⟩
  exact zero_notMem_utf8EncodeChar (fun hc0 => h (hc0 ▸ hc)) h0

end Lib
