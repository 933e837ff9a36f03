import Mathlib.Tactic.Common

/-!
UTF-8 as a list of bytes: the encodings of Unicode scalar values, one after another.
Such a list may be cut before any byte that does not continue a character, and
nowhere else.
-/
namespace Tcio

/-- The bytes are the encoding of some characters. -/
def Utf8 (v : List UInt8) : Prop := v.toByteArray.IsValidUTF8
instance (v : List UInt8) : Decidable (Utf8 v) := inferInstanceAs (Decidable v.toByteArray.IsValidUTF8)

namespace Utf8
variable {v w : List UInt8} {n : Nat} {c : Char} {b : UInt8}

/-- A byte that continues a character. -/
def Continues (b : UInt8) : Prop := 0x80 ≤ b.toNat ∧ b.toNat < 0xC0
instance (b : UInt8) : Decidable (Continues b) := inferInstanceAs (Decidable (_ ∧ _))

/-- The list may be cut here: at either end, or before a byte that does not continue a
    character. -/
def is_char_boundary (v : List UInt8) (index : Nat) : Bool :=
  if index = 0 then true
  else if inside : index < v.length then ¬ Continues v[index]
  else index = v.length

theorem is_char_boundary_iff :
    is_char_boundary v n ↔ n = 0 ∨ n = v.length ∨ ∃ inside : n < v.length, ¬ Continues v[n] := by
  unfold is_char_boundary
  split_ifs with start inside
  · simp [start]
  · simp [start,inside,Nat.ne_of_lt inside]
  · simp [start,inside]

/-! ### Characters -/

theorem nil : Utf8 [] := ByteArray.isValidUTF8_empty

theorem iff_chars : Utf8 v ↔ ∃ m : List Char, v = m.flatMap String.utf8EncodeChar := by
  constructor
  · rintro ⟨m,same⟩
    exact ⟨m,List.toByteArray_inj.mp same⟩
  · rintro ⟨m,rfl⟩
    exact ⟨m,rfl⟩

theorem continues_low (n : Nat) : Continues (UInt8.ofNat (n % 64+128)) := by
  simp only [Continues,UInt8.toNat_ofNat']
  omega

theorem tail_continues (mem : b ∈ (String.utf8EncodeChar c).tail) : Continues b := by
  revert mem
  fun_cases String.utf8EncodeChar <;> simp only [List.tail_cons,List.mem_cons,List.not_mem_nil,or_false] <;> intro later
  · exact later.elim
  · exact later ▸ continues_low _
  · rcases later with rfl | rfl <;> exact continues_low _
  · rcases later with rfl | rfl | rfl <;> exact continues_low _

/-- Every byte of a character but the first continues it. -/
theorem encoded (mem : b ∈ String.utf8EncodeChar c) : b.IsUTF8FirstByte ∨ Continues b := by
  obtain ⟨i,inside,found⟩ := List.mem_iff_getElem.mp mem
  cases i with
  | zero =>
    subst found
    exact .inl (UInt8.isUTF8FirstByte_getElem_utf8EncodeChar.mpr rfl)
  | succ i =>
    have later : i < (String.utf8EncodeChar c).tail.length := by
      rw [List.length_tail]
      omega
    refine .inr (tail_continues (c := c) ?_)
    rw [← found,← List.getElem_tail later]
    exact List.getElem_mem later

theorem cases_of_mem (valid : Utf8 v) (mem : b ∈ v) : b.IsUTF8FirstByte ∨ Continues b := by
  obtain ⟨m,rfl⟩ := iff_chars.mp valid
  obtain ⟨c,_,mem⟩ := List.mem_flatMap.mp mem
  exact encoded mem

theorem not_both (first : b.IsUTF8FirstByte) : ¬ Continues b := by
  have all : ∀ n < 256, (UInt8.ofNat n).IsUTF8FirstByte → ¬ Continues (UInt8.ofNat n) := by decide +kernel
  have here := all b.toNat b.toNat_lt
  rw [UInt8.ofNat_toNat] at here
  exact here first

/-! ### Cuts -/

theorem position_iff {valid : Utf8 v} : (⟨n⟩ : String.Pos.Raw).IsValid ⟨v.toByteArray,valid⟩ ↔ n ≤ v.length ∧ Utf8 (v.take n) := by
  have cut : (v.take n).toByteArray = v.toByteArray.extract 0 n := by
    ext1
    simp
  rw [String.Pos.Raw.isValid_iff_isValidUTF8_extract_zero,Utf8,cut]
  simp [String.Pos.Raw.le_iff,String.rawEndPos,String.utf8ByteSize]

/-- Well-formed bytes may be cut at the boundaries of characters and nowhere else. -/
theorem take_iff (valid : Utf8 v) (inside : n ≤ v.length) : Utf8 (v.take n) ↔ is_char_boundary v n := by
  have position := @position_iff _ n valid
  rw [String.Pos.Raw.isValid_iff_isUTF8FirstByte] at position
  simp only [String.Pos.Raw.lt_iff,String.Pos.Raw.ext_iff,String.getUTF8Byte,String.rawEndPos,String.utf8ByteSize,
    List.size_toByteArray,List.getElem_toByteArray,inside,true_and] at position
  rw [← position,is_char_boundary_iff]
  constructor
  · rintro (rfl | ⟨before,first⟩)
    · exact .inr (.inl rfl)
    · exact .inr (.inr ⟨before,not_both first⟩)
  · rintro (rfl | rfl | ⟨before,cut⟩)
    · exact position.mpr nil
    · exact .inl rfl
    · exact .inr ⟨before,(cases_of_mem valid (List.getElem_mem before)).resolve_right cut⟩

end Utf8
end Tcio
