import Tianole.Lib.Numeral
import Tianole.Printk.FormatText
import Tianole.Tty.Echo

/-! The three printers of integers: the conversions of `kernel/printk/printk.c`,
`early_log_u64_decimal` of `kernel/early_log.c` and `kdb_print_u64_decimal` of
`kernel/debug/kdb.c`. Each has a digit loop and an array of digits of its own. -/
namespace Tianole.Printk
open Numeral

/-! ### The two printers outside of `printk` -/

/-- The digit loop of both: the digits of a value, the last one first, with `n` places left in the
array. -/
def decimalLoop : ℕ → ℕ → Except Stop (List UInt8)
  | 0, value => if value = 0 then .ok [] else .error .overflow
  | n + 1, value =>
      if value = 0 then .ok []
      else (decimalLoop n (value / 10)).map (UInt8.ofNat (0x30 + value % 10) :: ·)

/-- `early_log_ready`, and the characters given to `arch_early_log_putc`. -/
structure EarlyLog where
  ready : Bool
  output : List UInt8

def earlyLogInit (log : EarlyLog) : EarlyLog := { log with ready := true }

def earlyLogPutc (log : EarlyLog) (ch : UInt8) : EarlyLog :=
  let log := if log.ready then log else earlyLogInit log
  { log with output := log.output ++ [ch] }

def earlyLogU64Decimal (log : EarlyLog) (value : ℕ) : Except Stop EarlyLog :=
  if value = 0 then .ok (earlyLogPutc log 0x30)
  else (decimalLoop 20 value).map fun digits => digits.reverse.foldl earlyLogPutc log

/-- Here and below, `console` is what the consoles have been given. -/
def ttyWriteString (console text : List UInt8) : List UInt8 := console ++ Tty.ttyWrite text

def kdbPrintU64Decimal (console : List UInt8) (value : ℕ) : Except Stop (List UInt8) :=
  if value = 0 then .ok (ttyWriteString console (ascii "0"))
  else (decimalLoop 20 value).map fun digits =>
    digits.reverse.foldl (fun console digit => console ++ Tty.ttyWrite [digit]) console

/-! ### Digits -/

section
variable {args : VaList} {fmt : ℕ → UInt8} {s : Scanner} {o : Output} {value base : ℕ}

theorem alphabet_eq {digit : ℕ} (h : digit < 16) : alphabet digit = digitByte digit := by
  have hall : ∀ d < 16, alphabet d = digitByte d := by decide
  exact hall digit h

theorem ofNat_digit {digit : ℕ} (h : digit < 10) : UInt8.ofNat (0x30 + digit) = alphabet digit := by
  have hall : ∀ d < 10, UInt8.ofNat (0x30 + d) = alphabet d := by decide
  exact hall digit h

/-- The loops differ only in how they write a digit. -/
theorem decimalLoop_eq_digitLoop (n value : ℕ) : decimalLoop n value = digitLoop 10 n value := by
  induction n generalizing value with
  | zero => rfl
  | succ n ih => rw [decimalLoop, digitLoop, ih, ofNat_digit (Nat.mod_lt _ (by decide))]

theorem digits_eq_numeral (hbase : 1 < base) (hle : base ≤ 16) (value : ℕ) :
    (if value = 0 then [0x30] else (Nat.digits base value).map alphabet).reverse =
      numeral base value := by
  rw [numeral_eq hbase]
  split
  · rfl
  · refine congrArg List.reverse (List.map_congr_left fun digit hdigit => ?_)
    exact alphabet_eq (Nat.lt_of_lt_of_le (Nat.digits_lt_base hbase hdigit) hle)

/-- Twenty places are enough for the digits of a word. -/
theorem decimalLoop_eq (hvalue : value < 2 ^ 64) (hne : value ≠ 0) :
    ∃ digits, decimalLoop 20 value = .ok digits ∧ digits.reverse = numeral 10 value := by
  have hroom : value < 10 ^ 20 := Nat.lt_trans hvalue (by norm_num)
  have hnumeral : ((Nat.digits 10 value).map alphabet).reverse = numeral 10 value := by
    rw [← digits_eq_numeral (by decide) (by decide), if_neg hne]
  refine ⟨_, ?_, hnumeral⟩
  rw [decimalLoop_eq_digitLoop, digitLoop_eq (by decide) hroom]

theorem unsignedText_eq (hbase : 1 < base) (hle : base ≤ 16) (value width : ℕ) (pad : UInt8) :
    unsignedText value base width pad =
      List.replicate (width - (numeral base value).length) pad ++ numeral base value := by
  rw [unsignedText, ← digits_eq_numeral hbase hle, List.length_reverse]

theorem signedText_eq (value : ℤ) : signedText value = signedNumeral value := by
  rw [signedText, unsignedText_eq (by decide) (by decide), signedNumeral_eq, Nat.zero_sub]
  rfl

/-! ### Output -/

theorem foldl_earlyLogPutc (text : List UInt8) (log : EarlyLog) :
    (text.foldl earlyLogPutc log).output = log.output ++ text := by
  induction text generalizing log with
  | nil => exact (List.append_nil _).symm
  | cons ch text ih =>
    have hone : (earlyLogPutc log ch).output = log.output ++ [ch] := by
      unfold earlyLogPutc
      dsimp only
      split <;> rfl
    rw [List.foldl_cons, ih, hone, List.append_assoc]
    rfl

theorem foldl_ttyWrite {text : List UInt8} (h : Tty.newline ∉ text) (console : List UInt8) :
    text.foldl (fun console ch => console ++ Tty.ttyWrite [ch]) console = console ++ text := by
  induction text generalizing console with
  | nil => exact (List.append_nil _).symm
  | cons ch text ih =>
    rw [List.mem_cons, not_or] at h
    obtain ⟨hch, htext⟩ := h
    have hone : Tty.ttyWrite [ch] = [ch] := by simp [Tty.ttyWrite, Ne.symm hch]
    rw [List.foldl_cons, ih htext, hone, List.append_assoc]
    rfl

theorem newline_not_mem_numeral (value : ℕ) : Tty.newline ∉ numeral 10 value := by
  have hdigit : ∀ d < 10, digitByte d ≠ Tty.newline := by decide
  rw [numeral_eq (by decide)]
  split
  · decide
  · rw [List.mem_reverse, List.mem_map]
    rintro ⟨d, hd, heq⟩
    exact hdigit d (Nat.digits_lt_base (by decide) hd) heq

theorem earlyLogU64Decimal_eq (log : EarlyLog) (hvalue : value < 2 ^ 64) :
    ∃ log', earlyLogU64Decimal log value = .ok log' ∧
      log'.output = log.output ++ numeral 10 value := by
  unfold earlyLogU64Decimal
  split
  next hzero =>
    rw [hzero]
    exact ⟨_, rfl, foldl_earlyLogPutc [0x30] log⟩
  next hne =>
    obtain ⟨digits, hloop, hnumeral⟩ := decimalLoop_eq hvalue hne
    rw [hloop, ← hnumeral]
    exact ⟨_, rfl, foldl_earlyLogPutc _ log⟩

theorem kdbPrintU64Decimal_eq (console : List UInt8) (hvalue : value < 2 ^ 64) :
    kdbPrintU64Decimal console value = .ok (console ++ numeral 10 value) := by
  unfold kdbPrintU64Decimal
  split
  next hzero =>
    rw [hzero]
    rfl
  next hne =>
    obtain ⟨digits, hloop, hnumeral⟩ := decimalLoop_eq hvalue hne
    have hnewline := newline_not_mem_numeral value
    rw [← hnumeral] at hnewline ⊢
    rw [hloop, Except.map, foldl_ttyWrite hnewline]

/-- A directive with two `l` modifiers and nothing else before its conversion. -/
theorem directive_long (args : VaList) {n : ℕ} (hn : 3 ≤ n) (h₀ : fmt s.pos = 'l'.toUInt8)
    (h₁ : fmt (s.pos + 1) = 'l'.toUInt8) (h₂ : fmt (s.pos + 2) ≠ 'l'.toUInt8) :
    ∃ s', directive fmt args n s = .ok s' ∧ s'.pos = s.pos + 3 ∧
      s'.next = s.next + consumes (fmt (s.pos + 2)) ∧
      s'.out = (conversionText args s.next ⟨0x20, 0, 2⟩ (fmt (s.pos + 2))).foldl printkEmitChar
        s.out := by
  obtain ⟨n, rfl⟩ : ∃ m, n = m + 3 := ⟨n - 3, by omega⟩
  have hzero : fmt s.pos ≠ 0x30 := by
    rw [h₀]
    decide
  have hdigit : ¬ IsDigit (fmt s.read.pos) := by
    change ¬ IsDigit (fmt s.pos)
    rw [h₀]
    decide
  have hwidth : widthLoop fmt (n + 3) s.read 0 = .ok (s.read.read, 0) := by
    rw [widthLoop, scanWhile, if_neg hdigit]
  have hlong : longLoop fmt (n + 3) s.read.read 0 =
      .ok (s.read.read.read.advance.read.advance.read, 2) := by
    have hfirst : fmt s.read.read.pos = 'l'.toUInt8 := h₀
    have hsecond : fmt s.read.read.read.advance.pos = 'l'.toUInt8 := h₁
    have hthird : ¬ fmt s.read.read.read.advance.read.advance.pos = 'l'.toUInt8 := h₂
    rw [longLoop, scanWhile, if_pos hfirst, scanWhile, if_pos hsecond, scanWhile, if_neg hthird]
    rfl
  have hdirective : directive fmt args (n + 3) s = convert args ⟨0x20, 0, 2⟩ (fmt (s.pos + 2))
      s.read.read.read.advance.read.advance.read.read.advance := by
    simp only [directive, hzero, if_false, hwidth, Except.bind, hlong]
    rfl
  rw [convert_eq] at hdirective
  exact ⟨_, hdirective, rfl, rfl, rfl⟩

end

/-! ### The printers agree -/

/-- A directive that is spelled `bytes` behind its `%`, wherever it stands in a format, emits
`text` when the next argument is as `arg` says. -/
def DirectiveEmits (bytes : List UInt8) (arg : VaList → ℕ → Prop) (text : List UInt8) : Prop :=
  ∀ fmt args (s : Scanner) n, bytes.length ≤ n →
    (∀ i b, bytes[i]? = some b → fmt (s.pos + i) = b) → arg args s.next →
    ∃ s', directive fmt args n s = .ok s' ∧ s'.pos = s.pos + bytes.length ∧
      s'.next = s.next + 1 ∧ s'.out.emitted = s.out.emitted ++ text

/-- Behind two `l` modifiers, a conversion of one argument emits its text. -/
theorem long_emits (conversion : UInt8) {arg : VaList → ℕ → Prop} {text : List UInt8}
    (hconversion : conversion ≠ 'l'.toUInt8) (hconsumes : consumes conversion = 1)
    (htext : ∀ args i, arg args i → conversionText args i ⟨0x20, 0, 2⟩ conversion = text) :
    DirectiveEmits (ascii "ll" ++ [conversion]) arg text := by
  intro fmt args s n hn hfmt harg
  have h₂ : fmt (s.pos + 2) = conversion := hfmt 2 _ rfl
  rw [← h₂] at hconversion
  obtain ⟨s', hdirective, hpos, hnext, hout⟩ :=
    directive_long args hn (hfmt 0 _ rfl) (hfmt 1 _ rfl) hconversion
  rw [h₂] at hnext hout
  rw [hconsumes] at hnext
  rw [htext args s.next harg] at hout
  exact ⟨s', hdirective, hpos, hnext, by rw [hout, emitted_foldl]⟩

theorem llu_emits (v : UInt64) :
    DirectiveEmits (ascii "llu") (fun args i => args.unsignedLong i = v) (numeral 10 v.toNat) := by
  refine long_emits 'u'.toUInt8 (by decide) rfl fun args i harg => ?_
  have htext : conversionText args i ⟨0x20, 0, 2⟩ 'u'.toUInt8 =
      unsignedText (args.unsignedLong i).toNat 10 0 0x20 := rfl
  rw [htext, harg, unsignedText_eq (by decide) (by decide), Nat.zero_sub]
  rfl

theorem lld_emits (v : Int64) :
    DirectiveEmits (ascii "lld") (fun args i => args.long i = v) (signedNumeral v.toInt) := by
  refine long_emits 'd'.toUInt8 (by decide) rfl fun args i harg => ?_
  have htext : conversionText args i ⟨0x20, 0, 2⟩ 'd'.toUInt8 =
      signedText (args.long i).toInt := rfl
  rw [htext, harg, signedText_eq]

/-- A value of type `long long`. -/
def FitsLong (n : ℤ) : Prop := -2 ^ 63 ≤ n ∧ n < 2 ^ 63

/-- Adding one first keeps the negation in range, for the least value too. -/
theorem negation_fits {v : Int64} (h : v.toInt < 0) :
    FitsLong (v.toInt + 1) ∧ FitsLong (-(v.toInt + 1)) := by
  have hlow := v.le_toInt
  unfold FitsLong
  omega

theorem printkEmitUnsignedWidth_emits (o : Output) (v : UInt64) {base : ℕ}
    (hbase : base = 10 ∨ base = 16) (width : ℕ) (pad : UInt8) :
    ∃ o', printkEmitUnsignedWidth o v.toNat base width pad = .ok o' ∧
      ∃ text, o'.emitted = o.emitted ++ text ∧
        text = List.replicate (width - (numeral base v.toNat).length) pad ++
          numeral base v.toNat ∧
        text.length = max width (numeral base v.toNat).length := by
  refine ⟨_, printkEmitUnsignedWidth_eq o (by omega) v.toNat_lt width pad, _, emitted_foldl _ o,
    unsignedText_eq (by omega) (by omega) _ _ _, ?_⟩
  rw [unsignedText_eq (by omega) (by omega), List.length_append, List.length_replicate]
  omega

/-- The arrays of digits have 32 and 20 places; no more than 20 are written. -/
theorem digit_arrays_suffice (v : UInt64) {base : ℕ} (hbase : base = 10 ∨ base = 16) :
    (∃ digits, digitLoop base 32 v.toNat = .ok digits ∧ digits.length ≤ 20) ∧
      ∃ digits, decimalLoop 20 v.toNat = .ok digits ∧ digits.length ≤ 20 := by
  have hvalue := v.toNat_lt
  have hten : v.toNat < 10 ^ 20 := Nat.lt_trans hvalue (by norm_num)
  have hpow : 10 ^ 20 ≤ base ^ 20 := Nat.pow_le_pow_left (by omega) 20
  have hroom : v.toNat < base ^ 20 := Nat.lt_of_lt_of_le hten hpow
  have hlength {b : ℕ} (hb : 1 < b) (h : v.toNat < b ^ 20) :
      ((Nat.digits b v.toNat).map alphabet).length ≤ 20 := by
    rw [List.length_map]
    exact (Nat.digits_length_le_iff hb v.toNat).mpr h
  have hmore : v.toNat < base ^ 32 :=
    Nat.lt_of_lt_of_le hroom (Nat.pow_le_pow_right (by omega) (by decide))
  refine ⟨⟨_, digitLoop_eq (by omega) hmore, hlength (by omega) hroom⟩, ?_⟩
  rw [decimalLoop_eq_digitLoop]
  exact ⟨_, digitLoop_eq (by decide) hten, hlength (by decide) hten⟩

/-- The printers of integers print canonical numerals: `%llu`, `early_log_u64_decimal` and
`kdb_print_u64_decimal` the same characters for every word, `%lld` the signed numeral without an
overflow in the negation, and `printk_emit_unsigned_width` the numeral behind as many pad characters
as are missing. No digit is stored behind the end of an array. -/
theorem integer_printers_exact :
    (∀ v : UInt64,
      DirectiveEmits (ascii "llu") (fun args i => args.unsignedLong i = v) (numeral 10 v.toNat) ∧
      (∀ log, ∃ log', earlyLogU64Decimal log v.toNat = .ok log' ∧
        log'.output = log.output ++ numeral 10 v.toNat) ∧
      ∀ console, kdbPrintU64Decimal console v.toNat = .ok (console ++ numeral 10 v.toNat)) ∧
    (∀ v : Int64,
      DirectiveEmits (ascii "lld") (fun args i => args.long i = v) (signedNumeral v.toInt) ∧
      (v.toInt < 0 → FitsLong (v.toInt + 1) ∧ FitsLong (-(v.toInt + 1)))) ∧
    (∀ (v : UInt64) (base : ℕ), base = 10 ∨ base = 16 →
      (∀ o width pad, ∃ o', printkEmitUnsignedWidth o v.toNat base width pad = .ok o' ∧
        ∃ text, o'.emitted = o.emitted ++ text ∧
          text = List.replicate (width - (numeral base v.toNat).length) pad ++
            numeral base v.toNat ∧
          text.length = max width (numeral base v.toNat).length) ∧
      (∃ digits, digitLoop base 32 v.toNat = .ok digits ∧ digits.length ≤ 20) ∧
      ∃ digits, decimalLoop 20 v.toNat = .ok digits ∧ digits.length ≤ 20) := by
  refine ⟨fun v => ⟨llu_emits v, fun log => ?_, fun console => ?_⟩,
    fun v => ⟨lld_emits v, negation_fits⟩, fun v base hbase => ⟨fun o width pad => ?_, ?_⟩⟩
  · exact earlyLogU64Decimal_eq log v.toNat_lt
  · exact kdbPrintU64Decimal_eq console v.toNat_lt
  · exact printkEmitUnsignedWidth_emits o v hbase width pad
  · exact digit_arrays_suffice v hbase

end Tianole.Printk
