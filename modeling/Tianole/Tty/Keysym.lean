import Tianole.Lib.Utf8
import Tianole.Tty.LineDiscipline

/-! Keymap symbols: `tty_keysym_to_utf8`, `tty_keysym_function_string` and `tty_receive_keysym` of
`drivers/tty/tty.c`, and when the lines they submit are well-formed UTF-8. -/
namespace Tianole.Tty
open String (utf8EncodeChar)

/-- `enum tty_keysym_type`; every other number is handled like `none`. -/
inductive KeysymType where
  | none
  | unicode
  | function
  deriving DecidableEq, Repr

/-- `struct tty_keysym`. -/
structure TtyKeysym where
  type : KeysymType
  value : UInt32
  deriving DecidableEq, Repr

/-! ### Unicode symbols -/

/-- `(char)(mark | bits)`. -/
def marked (mark bits : UInt32) : UInt8 := (mark ||| bits).toUInt8

/-- One branch of `tty_keysym_to_utf8`: nothing is stored when the buffer is too small. -/
def storeBytes (buffer : ℕ → UInt8) (size : ℕ) (bytes : List UInt8) : ℕ × Option (ℕ → UInt8) :=
  if size < bytes.length then (0, some buffer) else (bytes.length, some (fill buffer bytes))

/-- The return value and the buffer; null pointers are `none`. -/
def ttyKeysymToUtf8 (sym : Option TtyKeysym) (buffer : Option (ℕ → UInt8)) (size : ℕ) :
    ℕ × Option (ℕ → UInt8) :=
  match sym, buffer with
  | some sym, some bytes =>
      if sym.type ≠ .unicode then (0, buffer)
      else
        let codepoint := sym.value
        if codepoint ≤ 0x7f then storeBytes bytes size [codepoint.toUInt8]
        else if codepoint ≤ 0x7ff then
          storeBytes bytes size
            [marked 0xc0 (codepoint >>> 6), marked 0x80 (codepoint &&& 0x3f)]
        else if codepoint ≤ 0xffff then
          storeBytes bytes size
            [marked 0xe0 (codepoint >>> 12), marked 0x80 (codepoint >>> 6 &&& 0x3f),
              marked 0x80 (codepoint &&& 0x3f)]
        else if codepoint ≤ 0x10ffff then
          storeBytes bytes size
            [marked 0xf0 (codepoint >>> 18), marked 0x80 (codepoint >>> 12 &&& 0x3f),
              marked 0x80 (codepoint >>> 6 &&& 0x3f), marked 0x80 (codepoint &&& 0x3f)]
        else (0, buffer)
  | _, _ => (0, buffer)

/-- The bytes at the beginning of a buffer. -/
def written (buffer : ℕ → UInt8) (n : ℕ) : List UInt8 := (List.range n).map buffer

theorem storeBytes_fst (buffer : ℕ → UInt8) (size : ℕ) (bytes : List UInt8) :
    (storeBytes buffer size bytes).1 = if size < bytes.length then 0 else bytes.length := by
  rw [storeBytes]
  split <;> rfl

theorem storeBytes_unwritten {buffer : ℕ → UInt8} {size : ℕ} {bytes : List UInt8}
    (hne : bytes ≠ []) (h : (storeBytes buffer size bytes).1 = 0) :
    storeBytes buffer size bytes = (0, some buffer) := by
  rw [storeBytes] at h ⊢
  split at h
  next hsmall => rw [if_pos hsmall]
  next => exact absurd (List.length_eq_zero_iff.mp h) hne

theorem written_fill (buffer : ℕ → UInt8) (bytes : List UInt8) :
    written (fill buffer bytes) bytes.length = bytes := by
  refine List.ext_getElem (by simp [written]) fun i _ hi => ?_
  simp [written, fill, hi]

theorem storeBytes_stored {buffer after : ℕ → UInt8} {size k : ℕ} {bytes : List UInt8}
    (h : storeBytes buffer size bytes = (k, some after)) (hk : 0 < k) :
    after = fill buffer bytes ∧ written after k = bytes := by
  rw [storeBytes] at h
  split at h
  · obtain ⟨rfl, -⟩ := Prod.mk.inj h
    exact absurd hk (Nat.lt_irrefl 0)
  · obtain ⟨rfl, hafter⟩ := Prod.mk.inj h
    obtain rfl := Option.some.inj hafter
    exact ⟨rfl, written_fill buffer bytes⟩

section
variable {x : UInt32} {c : Char}

/-- A continuation byte as the source computes it and as the core library does. -/
theorem continuation_byte (x : UInt32) :
    marked 0x80 (x &&& 0x3f) = x.toUInt8 &&& 0x3f ||| 0x80 := by
  rw [marked, UInt32.toUInt8_or, UInt32.toUInt8_and, UInt8.or_comm]
  rfl

/-- The bits of a first byte above its mask are zero. -/
theorem first_byte {mark : UInt32} {bits : ℕ} (hbits : bits ≤ 8) (h : x.toNat < 2 ^ bits) :
    marked mark x = x.toUInt8 &&& UInt8.ofNat (2 ^ bits - 1) ||| mark.toUInt8 := by
  have hle : 2 ^ bits ≤ 2 ^ 8 := Nat.pow_le_pow_right (by decide) hbits
  have hmask : x.toUInt8 &&& UInt8.ofNat (2 ^ bits - 1) = x.toUInt8 := by
    rw [← UInt8.toNat_inj, UInt8.toNat_and, UInt32.toNat_toUInt8, UInt8.toNat_ofNat',
      Nat.mod_eq_of_lt (by omega), Nat.mod_eq_of_lt (by omega), Nat.and_two_pow_sub_one_eq_mod,
      Nat.mod_eq_of_lt h]
  rw [marked, UInt32.toUInt8_or, hmask, UInt8.or_comm]

theorem toNat_val_le (c : Char) : c.val.toNat ≤ 0x10ffff := by
  rcases c.valid with h | h
  · exact Nat.le_of_lt (Nat.lt_trans h (by decide))
  · exact Nat.le_of_lt_succ h.2

theorem toNat_shiftRight_lt {shift : UInt32} {bits : ℕ} (hshift : shift.toNat < 32)
    (h : x.toNat < 2 ^ shift.toNat * 2 ^ bits) : (x >>> shift).toNat < 2 ^ bits := by
  rw [UInt32.toNat_shiftRight, Nat.mod_eq_of_lt hshift, Nat.shiftRight_eq_div_pow]
  exact Nat.div_lt_of_lt_mul h

/-- On a scalar value the branches compute its UTF-8 form. -/
theorem ttyKeysymToUtf8_scalar (c : Char) (buffer : ℕ → UInt8) (size : ℕ) :
    ttyKeysymToUtf8 (some ⟨.unicode, c.val⟩) (some buffer) size =
      storeBytes buffer size (utf8EncodeChar c) := by
  simp only [ttyKeysymToUtf8, ne_eq, not_true_eq_false, if_false]
  rcases c.utf8Size_eq with hsize | hsize | hsize | hsize
  · have hle := Char.utf8Size_eq_one_iff.mp hsize
    rw [if_pos hle, String.utf8EncodeChar_eq_singleton hsize]
  · have hle := Char.utf8Size_eq_two_iff.mp hsize
    have hfirst : (c.val >>> 6).toNat < 2 ^ 5 :=
      toNat_shiftRight_lt (by decide) (Nat.lt_succ_of_le (UInt32.le_iff_toNat_le.mp hle.2))
    rw [if_neg (UInt32.not_le.mpr hle.1), if_pos hle.2, String.utf8EncodeChar_eq_cons_cons hsize,
      continuation_byte, first_byte (by decide) hfirst]
    rfl
  · have hle := Char.utf8Size_eq_three_iff.mp hsize
    have hone : ¬c.val ≤ 0x7f := fun h => UInt32.not_le.mpr hle.1 (UInt32.le_trans h (by decide))
    have hfirst : (c.val >>> 12).toNat < 2 ^ 4 :=
      toNat_shiftRight_lt (by decide) (Nat.lt_succ_of_le (UInt32.le_iff_toNat_le.mp hle.2))
    rw [if_neg hone, if_neg (UInt32.not_le.mpr hle.1), if_pos hle.2,
      String.utf8EncodeChar_eq_cons_cons_cons hsize, continuation_byte, continuation_byte,
      first_byte (by decide) hfirst]
    rfl
  · have hlt := Char.utf8Size_eq_four_iff.mp hsize
    have hone : ¬c.val ≤ 0x7f := fun h => UInt32.not_le.mpr hlt (UInt32.le_trans h (by decide))
    have htwo : ¬c.val ≤ 0x7ff := fun h => UInt32.not_le.mpr hlt (UInt32.le_trans h (by decide))
    have hmax := toNat_val_le c
    have hfirst : (c.val >>> 18).toNat < 2 ^ 3 :=
      toNat_shiftRight_lt (by decide) (Nat.lt_of_le_of_lt hmax (by decide))
    rw [if_neg hone, if_neg htwo, if_neg (UInt32.not_le.mpr hlt),
      if_pos (UInt32.le_iff_toNat_le.mpr hmax), String.utf8EncodeChar_eq_cons_cons_cons_cons hsize,
      continuation_byte, continuation_byte, continuation_byte, first_byte (by decide) hfirst]
    rfl

/-- Surrogates go through the branch for three bytes. -/
theorem ttyKeysymToUtf8_surrogate (hlow : 0xd800 ≤ x) (hhigh : x ≤ 0xdfff) (buffer : ℕ → UInt8)
    (size : ℕ) : ∃ bytes, bytes.length = 3 ∧
      ttyKeysymToUtf8 (some ⟨.unicode, x⟩) (some buffer) size = storeBytes buffer size bytes := by
  have hone : ¬x ≤ 0x7f := fun h => absurd (UInt32.le_trans hlow h) (by decide)
  have htwo : ¬x ≤ 0x7ff := fun h => absurd (UInt32.le_trans hlow h) (by decide)
  have hthree : x ≤ 0xffff := UInt32.le_trans hhigh (by decide)
  simp only [ttyKeysymToUtf8, ne_eq, not_true_eq_false, if_false, hone, htwo, hthree, if_true]
  exact ⟨_, rfl, rfl⟩

theorem ttyKeysymToUtf8_large (h : 0x10ffff < x) (buffer : ℕ → UInt8) (size : ℕ) :
    ttyKeysymToUtf8 (some ⟨.unicode, x⟩) (some buffer) size = (0, some buffer) := by
  have hnot (y : UInt32) (hy : y ≤ 0x10ffff) : ¬x ≤ y :=
    fun hx => UInt32.not_le.mpr h (UInt32.le_trans hx hy)
  simp only [ttyKeysymToUtf8, ne_eq, not_true_eq_false, if_false, hnot 0x7f (by decide),
    hnot 0x7ff (by decide), hnot 0xffff (by decide), hnot 0x10ffff (by decide)]

/-- Every 32-bit number is a scalar value, a surrogate or too large. -/
theorem codepoint_cases (x : UInt32) :
    (∃ c : Char, c.val = x) ∨ (0xd800 ≤ x ∧ x ≤ 0xdfff) ∨ 0x10ffff < x := by
  by_cases hvalid : x.isValidChar
  · exact .inl ⟨⟨x, hvalid⟩, rfl⟩
  · simp only [UInt32.isValidChar, Nat.isValidChar, not_or, not_and] at hvalid
    simp only [UInt32.le_iff_toNat_le, UInt32.lt_iff_toNat_lt, UInt32.reduceToNat]
    omega

theorem not_surrogate (c : Char) : ¬(0xd800 ≤ c.val ∧ c.val ≤ 0xdfff) := by
  have hvalid := c.valid
  simp only [UInt32.isValidChar, Nat.isValidChar] at hvalid
  simp only [UInt32.le_iff_toNat_le, UInt32.reduceToNat]
  omega

end

/-- The encoder is right on the value `c` with a buffer of `n` bytes. -/
structure EncodesWithin (c : UInt32) (n : ℕ) : Prop where
  /-- It returns `k > 0` exactly for a scalar value whose UTF-8 form has `k ≤ n` bytes. -/
  returns : ∀ buffer k, 0 < k →
    ((ttyKeysymToUtf8 (some ⟨.unicode, c⟩) (some buffer) n).1 = k ↔
      ∃ ch : Char, ch.val = c ∧ ch.utf8Size = k ∧ k ≤ n)
  /-- Then it writes that form, and a decoder maps it back. -/
  writes : ∀ buffer after k, ttyKeysymToUtf8 (some ⟨.unicode, c⟩) (some buffer) n =
    (k, some after) → 0 < k → ∃ ch : Char, ch.val = c ∧ after = fill buffer (utf8EncodeChar ch) ∧
      written after k = utf8EncodeChar ch ∧
      (written after k).toByteArray.utf8DecodeChar? 0 = some ch
  /-- No other scalar value has an encoding that begins with this one or that this one begins
  with. -/
  prefixFree : ∀ buffer after k, ttyKeysymToUtf8 (some ⟨.unicode, c⟩) (some buffer) n =
    (k, some after) → 0 < k → ∀ (ch : Char) n' buffer' after' k', ch.val ≠ c →
      ttyKeysymToUtf8 (some ⟨.unicode, ch.val⟩) (some buffer') n' = (k', some after') → 0 < k' →
      ¬written after k <+: written after' k' ∧ ¬written after' k' <+: written after k
  /-- Otherwise it returns 0 and writes nothing. -/
  unwritten : ∀ buffer, (ttyKeysymToUtf8 (some ⟨.unicode, c⟩) (some buffer) n).1 = 0 →
    (ttyKeysymToUtf8 (some ⟨.unicode, c⟩) (some buffer) n).2 = some buffer

theorem encodesWithin_scalar (c : Char) (n : ℕ) : EncodesWithin c.val n where
  returns buffer k hk := by
    rw [ttyKeysymToUtf8_scalar, storeBytes_fst, String.length_utf8EncodeChar]
    constructor
    · intro h
      split at h
      · omega
      · exact ⟨c, rfl, h, by omega⟩
    · rintro ⟨ch, hval, rfl, hle⟩
      obtain rfl := Char.ext hval
      rw [if_neg (by omega)]
  writes buffer after k h hk := by
    rw [ttyKeysymToUtf8_scalar] at h
    obtain ⟨hafter, hbytes⟩ := storeBytes_stored h hk
    exact ⟨c, rfl, hafter, hbytes, hbytes ▸ Utf8.decode_encode c⟩
  prefixFree buffer after k h hk ch n' buffer' after' k' hne h' hk' := by
    rw [ttyKeysymToUtf8_scalar] at h h'
    rw [(storeBytes_stored h hk).2, (storeBytes_stored h' hk').2]
    refine ⟨fun hpre => hne ?_, fun hpre => hne ?_⟩
    · rw [Utf8.eq_of_encode_isPrefix hpre]
    · rw [Utf8.eq_of_encode_isPrefix hpre]
  unwritten buffer h := by
    rw [ttyKeysymToUtf8_scalar] at h ⊢
    rw [storeBytes_unwritten String.utf8EncodeChar_ne_nil h]

/-- Where nothing is encoded, only the first clause asks for something. -/
theorem encodesWithin_none {c : UInt32} {n : ℕ}
    (hzero : ∀ buffer, ttyKeysymToUtf8 (some ⟨.unicode, c⟩) (some buffer) n = (0, some buffer))
    (hchar : ∀ ch : Char, ch.val ≠ c) : EncodesWithin c n where
  returns buffer k hk := by
    rw [hzero buffer]
    refine ⟨fun h => ?_, fun h => ?_⟩
    · exact absurd h (Nat.ne_of_lt hk)
    · obtain ⟨ch, hval, -⟩ := h
      exact absurd hval (hchar ch)
  writes buffer after k h hk := by
    rw [hzero buffer] at h
    exact absurd ((Prod.mk.inj h).1 ▸ hk) (Nat.lt_irrefl 0)
  prefixFree buffer after k h hk := by
    rw [hzero buffer] at h
    exact absurd ((Prod.mk.inj h).1 ▸ hk) (Nat.lt_irrefl 0)
  unwritten buffer _ := by rw [hzero buffer]

/-- The encoder is right on every value and buffer size but the surrogates, for which it writes
three bytes into every buffer that has room for them. -/
theorem utf8_encoder_correct_iff (c : UInt32) (n : ℕ) :
    EncodesWithin c n ↔ ¬(0xd800 ≤ c ∧ c ≤ 0xdfff ∧ 3 ≤ n) := by
  constructor
  · rintro h ⟨hlow, hhigh, hn⟩
    obtain ⟨bytes, hlen, hstore⟩ := ttyKeysymToUtf8_surrogate hlow hhigh (fun _ => 0) n
    have hthree : (ttyKeysymToUtf8 (some ⟨.unicode, c⟩) (some fun _ => 0) n).1 = 3 := by
      rw [hstore, storeBytes_fst, hlen, if_neg (by omega)]
    obtain ⟨ch, rfl, -⟩ := (h.returns _ 3 (by decide)).mp hthree
    exact not_surrogate ch ⟨hlow, hhigh⟩
  · intro hcond
    rcases codepoint_cases c with ⟨ch, rfl⟩ | ⟨hlow, hhigh⟩ | hlarge
    · exact encodesWithin_scalar ch n
    · refine encodesWithin_none (fun buffer => ?_) (fun ch hval => ?_)
      · obtain ⟨bytes, hlen, hstore⟩ := ttyKeysymToUtf8_surrogate hlow hhigh buffer n
        have hsmall : n < 3 := Nat.not_le.mp fun hn => hcond ⟨hlow, hhigh, hn⟩
        rw [hstore, storeBytes, hlen, if_pos hsmall]
      · exact not_surrogate ch (hval.symm ▸ ⟨hlow, hhigh⟩)
    · refine encodesWithin_none (fun buffer => ttyKeysymToUtf8_large hlarge buffer n) ?_
      rintro ch rfl
      exact Nat.not_lt.mpr (toNat_val_le ch) (UInt32.lt_iff_toNat_lt.mp hlarge)

/-- The surrogate `0xd800` is written as three bytes, which no decoder accepts. -/
theorem surrogate_encoded :
    (ttyKeysymToUtf8 (some ⟨.unicode, 0xd800⟩) (some fun _ => 0) 4).1 = 3 ∧
      ((ttyKeysymToUtf8 (some ⟨.unicode, 0xd800⟩) (some fun _ => 0) 4).2.map
        fun after => written after 3) = some [0xed, 0xa0, 0x80] ∧
      [0xed, 0xa0, 0x80].toByteArray.utf8DecodeChar? 0 = none ∧ ¬EncodesWithin 0xd800 4 := by
  refine ⟨by decide, by decide, by decide, fun h => ?_⟩
  obtain ⟨ch, hval, -⟩ := (h.returns (fun _ => 0) 3 (by decide)).mp (by decide)
  exact not_surrogate ch (hval.symm ▸ by decide)

/-! ### Function symbols -/

/-- An escape sequence without its terminator. -/
def escape (text : String) : List UInt8 := 0x1b :: text.toList.map fun ch => UInt8.ofNat ch.toNat

/-- `tty_function_strings`, with the indices of `enum tty_function_key`. -/
def ttyFunctionStrings : ℕ → Option (List UInt8)
  | 0 => escape "[[A"
  | 1 => escape "[[B"
  | 2 => escape "[[C"
  | 3 => escape "[[D"
  | 4 => escape "[[E"
  | 5 => escape "[17~"
  | 6 => escape "[18~"
  | 7 => escape "[19~"
  | 8 => escape "[20~"
  | 9 => escape "[21~"
  | 10 => escape "[23~"
  | 11 => escape "[24~"
  | 20 => escape "[1~"
  | 21 => escape "[2~"
  | 22 => escape "[3~"
  | 23 => escape "[4~"
  | 24 => escape "[5~"
  | 25 => escape "[6~"
  | 26 => escape "[A"
  | 27 => escape "[B"
  | 28 => escape "[D"
  | 29 => escape "[C"
  | _ => none

/-- The text that the pointer and `*length` describe. -/
def ttyKeysymFunctionString (sym : Option TtyKeysym) : Option (List UInt8) :=
  match sym with
  | none => none
  | some sym =>
      if sym.type ≠ .function ∨ 30 ≤ sym.value then none else ttyFunctionStrings sym.value.toNat

/-- The bytes that `tty_receive_keysym` hands to `tty_receive_char`. Of the local buffer only what
was written is read. -/
def keysymBytes (sym : Option TtyKeysym) : List UInt8 :=
  match ttyKeysymFunctionString sym with
  | some function => function
  | none =>
      match ttyKeysymToUtf8 sym (some fun _ => 0) 4 with
      | (length, some bytes) => written bytes length
      | (_, none) => []

def ttyReceiveKeysym (t : Terminal) (sym : Option TtyKeysym) : Terminal :=
  (keysymBytes sym).foldl (fun t ch => (ttyReceiveChar t ch).1) t

theorem keysymBytes_scalar (c : Char) : keysymBytes (some ⟨.unicode, c.val⟩) = utf8EncodeChar c := by
  have hsize := c.utf8Size_le_four
  have hnone : ttyKeysymFunctionString (some ⟨.unicode, c.val⟩) = none := rfl
  have hroom : ¬4 < (utf8EncodeChar c).length := by
    rw [String.length_utf8EncodeChar]
    omega
  rw [keysymBytes, hnone]
  simp only [ttyKeysymToUtf8_scalar, storeBytes, hroom, if_false]
  exact written_fill _ _

/-- Printable ASCII and the escape. -/
def Printable (b : UInt8) : Prop := 0x1b ≤ b ∧ b < 0x80

theorem ttyFunctionStrings_printable {n : ℕ} {text : List UInt8}
    (h : ttyFunctionStrings n = some text) : ∀ b ∈ text, Printable b := by
  have hall : text.all (fun b => 0x1b ≤ b && b < 0x80) = true := by
    unfold ttyFunctionStrings at h
    split at h <;> cases h <;> decide
  intro b hb
  simpa [Printable] using List.all_eq_true.mp hall b hb

theorem keysymBytes_function (value : UInt32) :
    ∀ b ∈ keysymBytes (some ⟨.function, value⟩), Printable b := by
  rw [keysymBytes]
  split
  next text htext =>
    rw [ttyKeysymFunctionString] at htext
    split_ifs at htext
    exact ttyFunctionStrings_printable htext
  next => simp [ttyKeysymToUtf8, written]

/-! ### Symbols in the edit line -/

/-- Bytes that neither delete nor submit. -/
def Ordinary (b : UInt8) : Prop := b ≠ backspace ∧ b ≠ newline

theorem Printable.ordinary {b : UInt8} (h : Printable b) : Ordinary b := by
  constructor <;> (rintro rfl; exact absurd h.1 (by decide))

/-- All bytes of a symbol other than the two controls are ordinary. -/
theorem ordinary_encode {c : Char} (hback : c.val ≠ 8) (hline : c.val ≠ 10) :
    ∀ b ∈ utf8EncodeChar c, Ordinary b := by
  intro b hb
  by_cases hsize : c.utf8Size = 1
  · rw [String.utf8EncodeChar_eq_singleton hsize, List.mem_singleton] at hb
    have hval : b.toNat = c.val.toNat := hb ▸ Utf8.toNat_toUInt8_val hsize
    refine ⟨?_, ?_⟩
    · rintro rfl
      exact hback (UInt32.toNat_inj.mp hval.symm)
    · rintro rfl
      exact hline (UInt32.toNat_inj.mp hval.symm)
  · have hlarge := Utf8.not_ascii_of_mem hsize hb
    constructor <;> (rintro rfl; exact hlarge (by decide))

/-- Ordinary bytes fill the line up to its end. -/
theorem Discipline.call_ordinary (d : Discipline) {bytes : List UInt8}
    (h : ∀ b ∈ bytes, Ordinary b) : (bytes.map TtyCall.receiveChar).foldl Discipline.call d =
      { d with edit := d.edit ++ bytes.take (127 - d.edit.length) } := by
  induction bytes generalizing d with
  | nil => simp
  | cons b bytes ih =>
    obtain ⟨hb, hrest⟩ := List.forall_mem_cons.mp h
    rw [List.map_cons, List.foldl_cons, ih _ hrest]
    simp only [Discipline.call, hb.2, if_false, editChar, hb.1]
    by_cases hroom : d.edit.length < 127
    · have htake : 127 - d.edit.length = 127 - (d.edit.length + 1) + 1 := by omega
      rw [if_pos hroom, htake, List.take_succ_cons]
      simp
    · have htake : 127 - d.edit.length = 0 := by omega
      simp [hroom, htake]

/-- The newline and the backspace as symbols. -/
def enter : TtyKeysym := ⟨.unicode, 10⟩
def erase : TtyKeysym := ⟨.unicode, 8⟩

/-- A symbol is taken in or refused as a whole, and only ASCII characters are deleted. -/
structure Whole (line : List UInt8) (sym : TtyKeysym) : Prop where
  deleted : sym = erase → ∀ b ∈ line.getLast?, b < 0x80
  entered : sym.type = .unicode → line.length < 127 →
    line.length + (keysymBytes (some sym)).length ≤ 127

/-- A scalar value or a function key. -/
def TtyKeysym.Proper (sym : TtyKeysym) : Prop :=
  sym.type = .function ∨ sym.type = .unicode ∧ ∃ c : Char, c.val = sym.value

theorem unicode_eq {c : Char} {value : UInt32} (h : c.val = value) :
    (⟨.unicode, c.val⟩ : TtyKeysym) = ⟨.unicode, value⟩ := congrArg _ h

theorem TtyKeysym.Proper.cases {sym : TtyKeysym} (h : sym.Proper) :
    (∃ value, sym = ⟨.function, value⟩) ∨ ∃ c : Char, sym = ⟨.unicode, c.val⟩ := by
  obtain ⟨type, value⟩ := sym
  rcases h with rfl | ⟨rfl, c, rfl⟩
  · exact .inl ⟨value, rfl⟩
  · exact .inr ⟨c, rfl⟩

/-- What a symbol does to the line and the queue. -/
def Discipline.symbol (d : Discipline) (sym : TtyKeysym) : Discipline :=
  ((keysymBytes (some sym)).map TtyCall.receiveChar).foldl Discipline.call d

section
variable {d : Discipline} {sym : TtyKeysym}

theorem keysymBytes_enter : keysymBytes (some enter) = [newline] := keysymBytes_scalar (Char.ofNat 10)

theorem keysymBytes_erase : keysymBytes (some erase) = [backspace] :=
  keysymBytes_scalar (Char.ofNat 8)

theorem whole_enter (line : List UInt8) : Whole line enter := by
  refine ⟨by simp [enter, erase], fun _ hlt => ?_⟩
  rw [keysymBytes_enter]
  exact hlt

theorem Discipline.symbol_enter (d : Discipline) :
    d.symbol enter = d.call (.receiveChar newline) := by
  rw [symbol, keysymBytes_enter]
  rfl

theorem Discipline.symbol_erase (d : Discipline) :
    d.symbol erase = { d with edit := d.edit.dropLast } := by
  rw [symbol, keysymBytes_erase]
  rfl

theorem Discipline.symbol_function (d : Discipline) (value : UInt32) :
    d.symbol ⟨.function, value⟩ = { d with edit := d.edit ++
      (keysymBytes (some ⟨.function, value⟩)).take (127 - d.edit.length) } :=
  d.call_ordinary fun b hb => (keysymBytes_function value b hb).ordinary

theorem Discipline.symbol_scalar (d : Discipline) {c : Char} (hback : c.val ≠ 8)
    (hline : c.val ≠ 10) : d.symbol ⟨.unicode, c.val⟩ =
      { d with edit := d.edit ++ (utf8EncodeChar c).take (127 - d.edit.length) } := by
  rw [symbol, keysymBytes_scalar]
  exact d.call_ordinary (ordinary_encode hback hline)

/-- Every symbol but the newline only edits the line. -/
theorem Discipline.symbol_edits (d : Discipline) (hsym : sym.Proper) (hne : sym ≠ enter) :
    ∃ edit, d.symbol sym = { d with edit := edit } := by
  rcases hsym.cases with ⟨value, rfl⟩ | ⟨c, rfl⟩
  · exact ⟨_, d.symbol_function value⟩
  · have hline : c.val ≠ 10 := fun h => hne (unicode_eq h)
    by_cases hback : c.val = 8
    · have herase : (⟨.unicode, c.val⟩ : TtyKeysym) = erase := unicode_eq hback
      rw [herase]
      exact ⟨_, d.symbol_erase⟩
    · exact ⟨_, d.symbol_scalar hback hline⟩

/-- A cut symbol is well-formed if nothing or all of it is left. -/
theorem valid_take_encode_iff {c : Char} {k : ℕ} :
    Utf8.Valid ((utf8EncodeChar c).take k) ↔ k = 0 ∨ c.utf8Size ≤ k := by
  constructor
  · intro h
    by_contra hcut
    exact Utf8.not_valid_take (by omega) (by omega) h
  · rintro (rfl | hle)
    · exact Utf8.valid_nil
    · rw [List.take_of_length_le (by rwa [String.length_utf8EncodeChar])]
      exact Utf8.valid_encode c

/-- The line stays well-formed exactly if the symbol is handled as a whole. -/
theorem Discipline.valid_symbol_iff (hvalid : Utf8.Valid d.edit) (hlen : d.edit.length ≤ 127)
    (hsym : sym.Proper) : Utf8.Valid (d.symbol sym).edit ↔ Whole d.edit sym := by
  rcases hsym.cases with ⟨value, rfl⟩ | ⟨c, rfl⟩
  · rw [d.symbol_function value]
    refine iff_of_true (hvalid.append (Utf8.valid_ascii fun b hb => ?_)) ⟨by simp [erase], by simp⟩
    exact (keysymBytes_function value b (List.mem_of_mem_take hb)).2
  · by_cases hback : c.val = 8
    · have herase : (⟨.unicode, c.val⟩ : TtyKeysym) = erase := unicode_eq hback
      rw [herase, d.symbol_erase, hvalid.dropLast_iff]
      refine ⟨fun h => ⟨fun _ => h, fun _ hlt => ?_⟩, fun h => h.deleted rfl⟩
      rw [keysymBytes_erase]
      exact hlt
    · by_cases hline : c.val = 10
      · have henter : (⟨.unicode, c.val⟩ : TtyKeysym) = enter := unicode_eq hline
        have hedit : (d.call (.receiveChar newline)).edit = [] := by
          simp only [call, if_true]
          split <;> rfl
        rw [henter, d.symbol_enter, hedit]
        exact iff_of_true Utf8.valid_nil (whole_enter _)
      · rw [d.symbol_scalar hback hline, hvalid.append_iff, valid_take_encode_iff]
        refine ⟨fun h => ⟨fun heq => ?_, fun _ hlt => ?_⟩, fun h => ?_⟩
        · exact absurd (congrArg TtyKeysym.value heq) hback
        · rw [keysymBytes_scalar, String.length_utf8EncodeChar]
          omega
        · have hroom := h.entered rfl
          rw [keysymBytes_scalar, String.length_utf8EncodeChar] at hroom
          omega

/-- All lines are well-formed. -/
structure Discipline.WellFormed (d : Discipline) : Prop where
  edit : Utf8.Valid d.edit
  accepted : ∀ line ∈ d.accepted, Utf8.Valid line

theorem Discipline.WellFormed.symbol (h : d.WellFormed) (hlen : d.edit.length ≤ 127)
    (hsym : sym.Proper) (hwhole : Whole d.edit sym) : (d.symbol sym).WellFormed := by
  refine ⟨(d.valid_symbol_iff h.edit hlen hsym).mpr hwhole, ?_⟩
  by_cases hline : sym = enter
  · rw [hline, d.symbol_enter, call, if_pos rfl]
    split
    · rw [List.forall_mem_append, List.forall_mem_singleton]
      exact ⟨h.accepted, h.edit⟩
    · exact h.accepted
  · obtain ⟨edit, hedit⟩ := d.symbol_edits hsym hline
    rw [hedit]
    exact h.accepted

/-- A newline queues the line if there is room. -/
theorem Discipline.queued_enter (hdelivered : d.delivered ≤ d.accepted.length) :
    (d.symbol enter).queued = if d.queued.length < 8 then d.queued ++ [d.edit] else d.queued := by
  rw [d.symbol_enter, call, if_pos rfl]
  split
  · exact List.drop_append_of_le_length hdelivered
  · rfl

/-! ### Runs -/

/-- Symbols, and reads that empty the queue meanwhile. -/
inductive KeysymCall where
  | receiveKeysym (sym : TtyKeysym)
  | tryReadLine (buffer : Option (ℕ → UInt8)) (size : ℕ)

def keysymCall (t : Terminal) : KeysymCall → Terminal
  | .receiveKeysym sym => ttyReceiveKeysym t (some sym)
  | .tryReadLine buffer size => (ttyTryReadLine t buffer size).1

/-- The bytes of the edit line, and of the lines on the queue. -/
def Terminal.edited (t : Terminal) : List UInt8 := (List.range t.editLength).map t.editLine
def Terminal.queue (t : Terminal) : List (List UInt8) :=
  (t.lines.contents ttyLineQueueSize).map TtyLine.bytes

theorem Follows.receiveKeysym {t : Terminal} (h : Follows t d) (sym : TtyKeysym) :
    Follows (ttyReceiveKeysym t (some sym)) (d.symbol sym) := by
  have hcalls := h.calls ((keysymBytes (some sym)).map .receiveChar)
  rwa [List.foldl_map] at hcalls

/-- The terminal follows a semantics in which all lines are well-formed. -/
def InOrder (t : Terminal) : Prop := ∃ d, Follows t d ∧ d.WellFormed

theorem Follows.edit_le {t : Terminal} (h : Follows t d) : d.edit.length ≤ 127 := by
  rw [h.length_edit]
  exact Nat.le_of_lt_succ h.holds.edit

theorem InOrder.call {t : Terminal} (h : InOrder t) (c : KeysymCall)
    (hsym : ∀ sym, c = .receiveKeysym sym → sym.Proper ∧ Whole t.edited sym) :
    InOrder (keysymCall t c) := by
  obtain ⟨d, hf, hd⟩ := h
  cases c with
  | receiveKeysym sym =>
    obtain ⟨hproper, hwhole⟩ := hsym sym rfl
    exact ⟨d.symbol sym, hf.receiveKeysym sym, hd.symbol hf.edit_le hproper (hf.edit ▸ hwhole)⟩
  | tryReadLine buffer size =>
    refine ⟨d.call (.tryReadLine buffer size), hf.call (.tryReadLine buffer size), ?_⟩
    cases buffer with
    | none => exact hd
    | some buffer =>
      simp only [Discipline.call]
      split
      · exact ⟨hd.edit, hd.accepted⟩
      · exact hd

theorem InOrder.queue_valid {t : Terminal} (h : InOrder t) : ∀ line ∈ t.queue, Utf8.Valid line := by
  obtain ⟨d, hf, hd⟩ := h
  intro line hline
  rw [Terminal.queue, hf.lines] at hline
  exact hd.accepted line (List.mem_of_mem_drop hline)

theorem InOrder.enter {t : Terminal} (h : InOrder t) :
    InOrder (ttyReceiveKeysym t (some Tty.enter)) := by
  refine h.call (.receiveKeysym Tty.enter) fun sym heq => ?_
  obtain rfl := KeysymCall.receiveKeysym.inj heq
  exact ⟨.inr ⟨rfl, Char.ofNat 10, rfl⟩, whole_enter _⟩

/-- A newline behind a symbol shows whether the symbol was handled as a whole. -/
theorem InOrder.next_iff {t : Terminal} (h : InOrder t) (hsym : sym.Proper) :
    (∀ line ∈ (ttyReceiveKeysym (ttyReceiveKeysym t (some sym)) (some Tty.enter)).queue,
      Utf8.Valid line) ↔ Whole t.edited sym ∨ t.lines.count = ttyLineQueueSize := by
  by_cases hline : sym = Tty.enter
  · rw [hline]
    exact iff_of_true h.enter.enter.queue_valid (.inl (whole_enter _))
  · have hbefore := h.queue_valid
    obtain ⟨d, hf, hd⟩ := h
    have hf' := hf.receiveKeysym sym
    obtain ⟨edit, hnext⟩ := d.symbol_edits hsym hline
    have hqueued : (d.symbol sym).queued = d.queued := by
      rw [hnext]
      rfl
    have hedit : Utf8.Valid (d.symbol sym).edit ↔ Whole t.edited sym := by
      rw [d.valid_symbol_iff hd.edit hf.edit_le hsym, ← hf.edit]
      rfl
    rw [Terminal.queue, hf.lines] at hbefore
    rw [Terminal.queue, (hf'.receiveKeysym Tty.enter).lines, Discipline.queued_enter hf'.delivered,
      hqueued, ← hf.count]
    by_cases hfull : t.lines.count = ttyLineQueueSize
    · rw [if_neg (by rw [hfull]; decide)]
      exact iff_of_true hbefore (.inr hfull)
    · have hroom : t.lines.count < 8 := Nat.lt_of_le_of_ne hf.holds.valid.count hfull
      rw [if_pos hroom, List.forall_mem_append, List.forall_mem_singleton, hedit]
      exact ⟨fun hall => .inl hall.2, fun hwhole => ⟨hbefore, hwhole.resolve_right hfull⟩⟩

end

/-- While every symbol is taken in or refused as a whole and only ASCII characters are deleted, all
lines on the queue are well-formed UTF-8. In every state of such a run the condition is sharp: a
symbol that does not meet it, with a newline behind it, puts a malformed line on the queue if there
is room. -/
theorem submitted_lines_utf8 {t : Terminal} (h : t.Started) (calls : List KeysymCall)
    (hproper : ∀ sym, .receiveKeysym sym ∈ calls → sym.Proper)
    (hwhole : ∀ pre sym, pre ++ [.receiveKeysym sym] <+: calls →
      Whole (pre.foldl keysymCall t).edited sym) :
    ∀ pre, pre <+: calls → ∃ t', pre.foldl keysymCall t = t' ∧
      (∀ line ∈ t'.queue, Utf8.Valid line) ∧
      ∀ sym : TtyKeysym, sym.Proper →
        ((∀ line ∈ ([.receiveKeysym sym, .receiveKeysym enter].foldl keysymCall t').queue,
          Utf8.Valid line) ↔ Whole t'.edited sym ∨ t'.lines.count = ttyLineQueueSize) := by
  suffices hall : ∀ pre, pre <+: calls → InOrder (pre.foldl keysymCall t) from
    fun pre hpre => ⟨_, rfl, (hall pre hpre).queue_valid, fun sym hsym => (hall pre hpre).next_iff hsym⟩
  intro pre
  induction pre using List.reverseRecOn with
  | nil => exact fun _ => ⟨.start, h.follows, Utf8.valid_nil, by simp [Discipline.start]⟩
  | append_singleton pre c ih =>
    intro hpre
    have hbefore : pre <+: calls := (List.prefix_append pre [c]).trans hpre
    rw [List.foldl_concat]
    refine (ih hbefore).call c ?_
    rintro sym rfl
    exact ⟨hproper sym (hpre.subset (by simp)), hwhole pre sym hpre⟩

/-- The symbol for a letter of two bytes. -/
def eAcute : TtyKeysym := ⟨.unicode, 0xe9⟩

theorem eAcute_proper : eAcute.Proper := .inr ⟨rfl, Char.ofNat 0xe9, rfl⟩

theorem enter_proper : enter.Proper := .inr ⟨rfl, Char.ofNat 10, rfl⟩

/-- The letter, submitted. -/
theorem submitted_lines_utf8_letter :
    ([.receiveKeysym eAcute, .receiveKeysym enter].foldl keysymCall ttyBoot).queue =
        [[0xc3, 0xa9]] ∧
      ∀ line ∈ ([.receiveKeysym eAcute, .receiveKeysym enter].foldl keysymCall ttyBoot).queue,
        Utf8.Valid line := by
  have hproper (sym : TtyKeysym)
      (hsym : .receiveKeysym sym ∈ [KeysymCall.receiveKeysym eAcute, .receiveKeysym enter]) :
      sym.Proper := by
    simp only [List.mem_cons, KeysymCall.receiveKeysym.injEq, List.not_mem_nil, or_false] at hsym
    rcases hsym with rfl | rfl
    · exact eAcute_proper
    · exact enter_proper
  have hwhole (pre : List KeysymCall) (sym : TtyKeysym)
      (hpre : pre ++ [.receiveKeysym sym] <+: [.receiveKeysym eAcute, .receiveKeysym enter]) :
      Whole (pre.foldl keysymCall ttyBoot).edited sym := by
    have hlen := hpre.length_le
    obtain ⟨rest, hrest⟩ := hpre
    rcases pre with _ | ⟨c, _ | ⟨c', pre⟩⟩
    · cases hrest
      exact ⟨fun h => absurd h (by decide), fun _ _ => by decide⟩
    · cases hrest
      exact whole_enter _
    · simp at hlen
  obtain ⟨t', rfl, hvalid, -⟩ := submitted_lines_utf8 ttyBoot_started
    [.receiveKeysym eAcute, .receiveKeysym enter] hproper hwhole _ (List.prefix_refl _)
  exact ⟨by decide, hvalid⟩

/-- The letter, a backspace and a newline: the first byte of the letter is submitted alone. -/
theorem backspace_splits_symbol :
    (∀ sym, .receiveKeysym sym ∈ [KeysymCall.receiveKeysym eAcute, .receiveKeysym erase,
      .receiveKeysym enter] → sym.Proper) ∧
    ([.receiveKeysym eAcute, .receiveKeysym erase, .receiveKeysym enter].foldl keysymCall
      ttyBoot).queue = [[0xc3]] ∧ ¬Utf8.Valid [0xc3] := by
  refine ⟨fun sym hsym => ?_, by decide, @Utf8.not_valid_take (Char.ofNat 0xe9) 1 ?_ ?_⟩
  · simp only [List.mem_cons, KeysymCall.receiveKeysym.injEq, List.not_mem_nil, or_false] at hsym
    rcases hsym with rfl | rfl | rfl
    · exact eAcute_proper
    · exact .inr ⟨rfl, Char.ofNat 8, rfl⟩
    · exact enter_proper
  · decide
  · decide

end Tianole.Tty
