import Mathlib.Data.List.Induction

/-! UTF-8 byte strings as lists: validity, and what cutting off a part of a symbol does to it. The
encoder and the decoder are those of the core library. -/
namespace Utf8
open String (utf8EncodeChar)

/-- Well-formed UTF-8. -/
def Valid (bytes : List UInt8) : Prop := bytes.toByteArray.IsValidUTF8

section
variable {bytes rest : List UInt8} {c d : Char}

theorem valid_iff : Valid bytes ↔ ∃ m : List Char, bytes = m.flatMap utf8EncodeChar := by
  constructor
  · rintro ⟨m, hm⟩
    exact ⟨m, List.toByteArray_inj.mp hm⟩
  · rintro ⟨m, rfl⟩
    exact ⟨m, rfl⟩

theorem valid_nil : Valid [] := valid_iff.mpr ⟨[], rfl⟩

theorem valid_encode (c : Char) : Valid (utf8EncodeChar c) := valid_iff.mpr ⟨[c], by simp⟩

theorem Valid.append (h : Valid bytes) (h' : Valid rest) : Valid (bytes ++ rest) := by
  obtain ⟨m, rfl⟩ := valid_iff.mp h
  obtain ⟨m', rfl⟩ := valid_iff.mp h'
  exact valid_iff.mpr ⟨m ++ m', by simp⟩

/-- The first symbol of a string can be read off its bytes. -/
theorem encode_append_inj {rest' : List UInt8}
    (h : utf8EncodeChar c ++ rest = utf8EncodeChar d ++ rest') : c = d := by
  have hc : ((utf8EncodeChar c ++ rest).toByteArray).utf8DecodeChar? 0 = some c := by
    rw [List.toByteArray_append]
    exact ByteArray.utf8DecodeChar?_utf8EncodeChar_append
  have hd : ((utf8EncodeChar d ++ rest').toByteArray).utf8DecodeChar? 0 = some d := by
    rw [List.toByteArray_append]
    exact ByteArray.utf8DecodeChar?_utf8EncodeChar_append
  rw [h] at hc
  exact Option.some.inj (hc.symm.trans hd)

theorem decode_encode (c : Char) : (utf8EncodeChar c).toByteArray.utf8DecodeChar? 0 = some c := by
  have h := @ByteArray.utf8DecodeChar?_utf8EncodeChar_append .empty c
  rwa [ByteArray.append_empty] at h

/-- No symbol's encoding is the beginning of another's. -/
theorem eq_of_encode_isPrefix (h : utf8EncodeChar c <+: utf8EncodeChar d) : c = d := by
  obtain ⟨rest, hrest⟩ := h
  exact encode_append_inj (hrest.trans (List.append_nil _).symm)

/-- Behind a well-formed beginning, the rest decides. -/
theorem Valid.append_iff (h : Valid bytes) : Valid (bytes ++ rest) ↔ Valid rest := by
  refine ⟨fun hall => ?_, h.append⟩
  obtain ⟨m, rfl⟩ := valid_iff.mp h
  clear h
  induction m with
  | nil => simpa using hall
  | cons c m ih =>
    obtain ⟨m', hm'⟩ := valid_iff.mp hall
    rw [List.flatMap_cons, List.append_assoc] at hm'
    cases m' with
    | nil => simp at hm'
    | cons d m' =>
      rw [List.flatMap_cons] at hm'
      obtain rfl := encode_append_inj hm'
      exact ih (valid_iff.mpr ⟨m', List.append_cancel_left hm'⟩)

/-- A symbol that is cut off inside is not well-formed. -/
theorem not_valid_take {k : ℕ} (hpos : 0 < k) (hlt : k < c.utf8Size) :
    ¬Valid ((utf8EncodeChar c).take k) := by
  intro h
  have hlen : ((utf8EncodeChar c).take k).length = k := by
    rw [List.length_take, String.length_utf8EncodeChar, Nat.min_eq_left (Nat.le_of_lt hlt)]
  obtain ⟨m, hm⟩ := valid_iff.mp h
  cases m with
  | nil =>
    rw [hm, List.flatMap_nil, List.length_nil] at hlen
    omega
  | cons d m =>
    rw [List.flatMap_cons] at hm
    have hd : utf8EncodeChar d <+: utf8EncodeChar c :=
      (List.prefix_append _ _).trans (hm ▸ List.take_prefix k _)
    obtain rfl := eq_of_encode_isPrefix hd
    have := congrArg List.length hm
    rw [hlen, List.length_append, String.length_utf8EncodeChar] at this
    omega

/-! ### ASCII -/

theorem not_or_lt {x y : UInt8} (hy : 0x80 ≤ y) : ¬(x ||| y) < 0x80 := by
  rw [UInt8.lt_iff_toNat_lt, UInt8.toNat_or, Nat.not_lt]
  exact Nat.le_trans (UInt8.le_iff_toNat_le.mp hy) Nat.right_le_or

/-- The bytes of a longer symbol are not ASCII. -/
theorem not_ascii_of_mem {b : UInt8} (hsize : c.utf8Size ≠ 1) (hb : b ∈ utf8EncodeChar c) :
    ¬b < 0x80 := by
  rcases c.utf8Size_eq with hone | htwo | hthree | hfour
  · exact absurd hone hsize
  · rw [String.utf8EncodeChar_eq_cons_cons htwo] at hb
    simp only [List.mem_cons, List.not_mem_nil, or_false] at hb
    rcases hb with rfl | rfl <;> exact not_or_lt (by decide)
  · rw [String.utf8EncodeChar_eq_cons_cons_cons hthree] at hb
    simp only [List.mem_cons, List.not_mem_nil, or_false] at hb
    rcases hb with rfl | rfl | rfl <;> exact not_or_lt (by decide)
  · rw [String.utf8EncodeChar_eq_cons_cons_cons_cons hfour] at hb
    simp only [List.mem_cons, List.not_mem_nil, or_false] at hb
    rcases hb with rfl | rfl | rfl | rfl <;> exact not_or_lt (by decide)

theorem toNat_toUInt8_val (hsize : c.utf8Size = 1) : c.val.toUInt8.toNat = c.val.toNat := by
  have hle : c.val.toNat ≤ 127 := Char.utf8Size_eq_one_iff.mp hsize
  rw [UInt32.toNat_toUInt8]
  exact Nat.mod_eq_of_lt (by omega)

/-- Symbols of one byte are the ASCII characters, and no other symbol ends in an ASCII byte. -/
theorem ascii_getLast_encode_iff :
    (∀ b ∈ (utf8EncodeChar c).getLast?, b < 0x80) ↔ c.utf8Size = 1 := by
  by_cases hsize : c.utf8Size = 1
  · have hle : c.val.toNat ≤ 127 := Char.utf8Size_eq_one_iff.mp hsize
    refine iff_of_true ?_ hsize
    rw [String.utf8EncodeChar_eq_singleton hsize, List.getLast?_singleton]
    rintro b hb
    obtain rfl := Option.mem_some_iff.mp hb
    rw [UInt8.lt_iff_toNat_lt, toNat_toUInt8_val hsize]
    exact Nat.lt_succ_of_le hle
  · have hne : utf8EncodeChar c ≠ [] := String.utf8EncodeChar_ne_nil
    refine iff_of_false (fun h => ?_) hsize
    exact not_ascii_of_mem hsize (List.getLast_mem hne)
      (h _ (Option.mem_def.mpr (List.getLast?_eq_some_getLast hne)))

theorem valid_ascii (h : ∀ b ∈ bytes, b < 0x80) : Valid bytes := by
  induction bytes with
  | nil => exact valid_nil
  | cons b bytes ih =>
    obtain ⟨hb, hrest⟩ := List.forall_mem_cons.mp h
    have hsmall : b.toNat < 128 := UInt8.lt_iff_toNat_lt.mp hb
    have hval : (Char.ofUInt8 b).val.toNat = b.toNat := UInt8.toNat_toUInt32 b
    have hsize : (Char.ofUInt8 b).utf8Size = 1 := by
      rw [Char.utf8Size_eq_one_iff, UInt32.le_iff_toNat_le, hval]
      exact Nat.le_of_lt_succ hsmall
    have hbyte : (Char.ofUInt8 b).val.toUInt8 = b :=
      UInt8.toNat_inj.mp ((toNat_toUInt8_val hsize).trans hval)
    have hencode : utf8EncodeChar (Char.ofUInt8 b) = [b] := by
      rw [String.utf8EncodeChar_eq_singleton hsize, hbyte]
    exact (hencode ▸ valid_encode (Char.ofUInt8 b)).append (ih hrest)

/-! ### The last byte -/

theorem valid_dropLast_encode_iff : Valid (utf8EncodeChar c).dropLast ↔ c.utf8Size = 1 := by
  have hpos := c.utf8Size_pos
  rw [List.dropLast_eq_take, String.length_utf8EncodeChar]
  refine ⟨fun h => ?_, fun h => ?_⟩
  · by_contra hne
    exact not_valid_take (by omega) (by omega) h
  · rw [h]
    exact valid_nil

/-- Deleting the last byte keeps a string well-formed exactly if that byte is a symbol. -/
theorem Valid.dropLast_iff (h : Valid bytes) :
    Valid bytes.dropLast ↔ ∀ b ∈ bytes.getLast?, b < 0x80 := by
  obtain ⟨m, rfl⟩ := valid_iff.mp h
  rcases List.eq_nil_or_concat m with rfl | ⟨m, c, rfl⟩
  · simpa using valid_nil
  · have hm : Valid (m.flatMap utf8EncodeChar) := valid_iff.mpr ⟨m, rfl⟩
    have hne : utf8EncodeChar c ≠ [] := String.utf8EncodeChar_ne_nil
    have hlast : (m.flatMap utf8EncodeChar ++ utf8EncodeChar c).getLast? =
        (utf8EncodeChar c).getLast? := by
      rw [List.getLast?_append, List.getLast?_eq_some_getLast hne, Option.some_or]
    rw [List.concat_eq_append, List.flatMap_append, List.flatMap_singleton, hlast,
      List.dropLast_append_of_ne_nil hne, hm.append_iff, valid_dropLast_encode_iff,
      ascii_getLast_encode_iff]

end

end Utf8
