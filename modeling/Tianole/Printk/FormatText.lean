import Mathlib.Data.Nat.Digits.Lemmas
import Tianole.Printk.Format

/-! What a format string stands for, read one byte at a time, and that `vprintk_format` emits just
that while it stays inside the string. -/
namespace Tianole.Printk

/-! ### The text of a conversion -/

/-- A number in a base, padded on the left. -/
def unsignedText (value base width : ℕ) (pad : UInt8) : List UInt8 :=
  let digits := if value = 0 then [0x30] else (Nat.digits base value).map alphabet
  List.replicate (width - digits.length) pad ++ digits.reverse

def signedText (value : ℤ) : List UInt8 :=
  (if value < 0 then [0x2d] else []) ++ unsignedText value.natAbs 10 0 0x20

def stringText : StringArg → List UInt8
  | none => ascii "(null)"
  | some text => text.val

/-- How many arguments a conversion takes. -/
def consumes (spec : UInt8) : ℕ :=
  if spec ∈ ['c', 's', 'd', 'i', 'u', 'x', 'p'].map Char.toUInt8 then 1 else 0

def conversionText (args : VaList) (n : ℕ) (d : Directive) (spec : UInt8) : List UInt8 :=
  if spec = 'c'.toUInt8 then [UInt8.ofInt (args.int n).toInt]
  else if spec = 's'.toUInt8 then stringText (args.string n)
  else if spec = 'd'.toUInt8 ∨ spec = 'i'.toUInt8 then signedText (signedArg args n d.longCount)
  else if spec = 'u'.toUInt8 then
    unsignedText (unsignedArg args n d.longCount) 10 d.width d.pad
  else if spec = 'x'.toUInt8 then
    unsignedText (unsignedArg args n d.longCount) 16 d.width d.pad
  else if spec = 'p'.toUInt8 then
    ascii "0x" ++ unsignedText (args.pointer n).toNat 16 0 0x20
  else if spec ≠ 0 then ['%'.toUInt8, spec] else ['%'.toUInt8]

/-! ### Formats byte by byte -/

/-- Outside directives, behind a `%`, among the digits of a width, among the `l` modifiers. -/
inductive Mode where
  | text
  | start
  | width
  | length
  deriving DecidableEq, Repr

structure Format where
  mode : Mode
  directive : Directive
  next : ℕ
  text : List UInt8

namespace Format

variable (args : VaList)

def conversion (f : Format) (ch : UInt8) : Format where
  mode := .text
  directive := f.directive
  next := f.next + consumes ch
  text := f.text ++ conversionText args f.next f.directive ch

def stepLength (f : Format) (ch : UInt8) : Format :=
  if ch = 'l'.toUInt8 then
    { f with mode := .length, directive :=
        { f.directive with longCount := (f.directive.longCount + 1).bmod (2 ^ 32) } }
  else f.conversion args ch

def stepWidth (f : Format) (ch : UInt8) : Format :=
  if IsDigit ch then
    { f with mode := .width, directive := { f.directive with width := addDigit f.directive.width ch } }
  else f.stepLength args ch

def stepStart (f : Format) (ch : UInt8) : Format :=
  if ch = '%'.toUInt8 then { f with mode := .text, text := f.text ++ [ch] }
  else if ch = 0x30 then { f with mode := .width, directive := { f.directive with pad := 0x30 } }
  else f.stepWidth args ch

def step (f : Format) (ch : UInt8) : Format :=
  match f.mode with
  | .text =>
      if ch = '%'.toUInt8 then { f with mode := .start, directive := ⟨0x20, 0, 0⟩ }
      else { f with text := f.text ++ [ch] }
  | .start => f.stepStart args ch
  | .width => f.stepWidth args ch
  | .length => f.stepLength args ch

def begin : Format := ⟨.text, ⟨0x20, 0, 0⟩, 0, []⟩

/-- A format string, read to its end. -/
def run (bytes : List UInt8) : Format := bytes.foldl (step args) begin

end Format

/-- The text of a format. -/
def formatText (args : VaList) (bytes : List UInt8) : List UInt8 := (Format.run args bytes).text

/-! ### What the emitting functions emit -/

section
variable {o : Output} {args : VaList}

theorem padLoop_eq (index : ℕ) (pad : UInt8) (width : ℕ) (o : Output) :
    padLoop index pad width o = (List.replicate (width - index) pad).foldl printkEmitChar o := by
  induction width generalizing o with
  | zero => rw [padLoop, Nat.zero_sub, List.replicate_zero, List.foldl_nil]
  | succ width ih =>
    rw [padLoop]
    split
    next hlt =>
      have hone : width + 1 - index = width - index + 1 := by omega
      rw [ih, hone, List.replicate_succ, List.foldl_cons]
    next hge =>
      have hnone : width + 1 - index = 0 := by omega
      rw [hnone, List.replicate_zero, List.foldl_nil]

/-- The array of digits is long enough. -/
theorem digitLoop_eq {base n value : ℕ} (hbase : 1 < base) (hvalue : value < base ^ n) :
    digitLoop base n value = .ok ((Nat.digits base value).map alphabet) := by
  induction n generalizing value with
  | zero =>
    obtain rfl : value = 0 := by simpa using hvalue
    rw [digitLoop, if_pos rfl, Nat.digits_zero, List.map_nil]
  | succ n ih =>
    rw [digitLoop]
    split
    next hzero => rw [hzero, Nat.digits_zero, List.map_nil]
    next hne =>
      have hrest : value / base < base ^ n := Nat.div_lt_of_lt_mul (by rwa [← Nat.pow_succ'])
      rw [ih hrest, Nat.digits_def' hbase (Nat.pos_of_ne_zero hne)]
      rfl

theorem printkEmitUnsignedWidth_eq (o : Output) {value base : ℕ} (hbase : 10 ≤ base)
    (hvalue : value < 2 ^ 64) (width : ℕ) (pad : UInt8) :
    printkEmitUnsignedWidth o value base width pad =
      .ok ((unsignedText value base width pad).foldl printkEmitChar o) := by
  have hroom : value < base ^ 32 :=
    Nat.lt_of_lt_of_le (Nat.lt_trans hvalue (by norm_num)) (Nat.pow_le_pow_left hbase 32)
  have hdigits : (if value = 0 then .ok [0x30] else digitLoop base 32 value) =
      (.ok (if value = 0 then [0x30] else (Nat.digits base value).map alphabet) :
        Except Stop (List UInt8)) := by
    rw [digitLoop_eq (by omega) hroom]
    split <;> rfl
  rw [printkEmitUnsignedWidth, hdigits, Except.map, unsignedText, List.foldl_append, padLoop_eq]

theorem printkEmitUnsigned_eq (o : Output) {value base : ℕ} (hbase : 10 ≤ base)
    (hvalue : value < 2 ^ 64) : printkEmitUnsigned o value base =
      .ok ((unsignedText value base 0 0x20).foldl printkEmitChar o) :=
  printkEmitUnsignedWidth_eq o hbase hvalue 0 0x20

theorem printkEmitSigned_eq (o : Output) {value : ℤ} (hlow : -2 ^ 63 ≤ value)
    (hhigh : value < 2 ^ 63) :
    printkEmitSigned o value = .ok ((signedText value).foldl printkEmitChar o) := by
  rw [printkEmitSigned, signedText]
  split
  next hneg =>
    have hmagnitude : Word.wrap64 ((-(value + 1)).toNat + 1) = value.natAbs := by
      rw [Word.wrap64]
      omega
    rw [hmagnitude, printkEmitUnsigned_eq _ (by decide) (by omega)]
    rfl
  next hpos =>
    have hmagnitude : value.toNat = value.natAbs := by omega
    rw [hmagnitude, printkEmitUnsigned_eq _ (by decide) (by omega)]
    rfl

theorem signedArg_bounds (args : VaList) (n : ℕ) (longCount : ℤ) :
    -2 ^ 63 ≤ signedArg args n longCount ∧ signedArg args n longCount < 2 ^ 63 := by
  have hlong := (args.long n).le_toInt
  have hlong' := (args.long n).toInt_lt
  have hint := (args.int n).le_toInt
  have hint' := (args.int n).toInt_lt
  unfold signedArg
  split_ifs <;> constructor <;> omega

theorem unsignedArg_lt (args : VaList) (n : ℕ) (longCount : ℤ) :
    unsignedArg args n longCount < 2 ^ 64 := by
  have hlong := (args.unsignedLong n).toNat_lt
  have hint := (args.unsignedInt n).toNat_lt
  unfold unsignedArg
  split_ifs <;> omega

/-- Every conversion emits its text. -/
theorem convert_eq (args : VaList) (d : Directive) (spec : UInt8) (s : Scanner) :
    convert args d spec s = .ok { s with
      next := s.next + consumes spec
      out := (conversionText args s.next d spec).foldl printkEmitChar s.out } := by
  obtain ⟨hlow, hhigh⟩ := signedArg_bounds args s.next d.longCount
  have hunsigned := unsignedArg_lt args s.next d.longCount
  unfold convert conversionText
  split_ifs with hc hs hd hu hx hp hzero
  · rw [hc]
    rfl
  · rw [hs]
    cases args.string s.next <;> rfl
  · have hone : consumes spec = 1 := by rcases hd with rfl | rfl <;> rfl
    rw [printkEmitSigned_eq _ hlow hhigh, hone]
    rfl
  · rw [printkEmitUnsignedWidth_eq _ (by decide) hunsigned, hu]
    rfl
  · rw [printkEmitUnsignedWidth_eq _ (by decide) hunsigned, hx]
    rfl
  · rw [printkEmitUnsigned_eq _ (by decide) (args.pointer s.next).toNat_lt, hp,
      List.foldl_append]
    rfl
  all_goals
    have hnone : consumes spec = 0 := by
      refine if_neg fun hmem => ?_
      simp only [List.map_cons, List.map_nil, List.mem_cons, List.not_mem_nil, or_false] at hmem
      grind
    rw [hnone]
    rfl

theorem emitted_foldl (text : List UInt8) (o : Output) :
    (text.foldl printkEmitChar o).emitted = o.emitted ++ text := by
  induction text generalizing o with
  | nil => exact (List.append_nil _).symm
  | cons ch text ih =>
    rw [List.foldl_cons, ih]
    simp [printkEmitChar]

/-- The counter follows what was emitted, as an `int`. -/
def Counted (o : Output) : Prop := o.count = (o.emitted.length : ℤ).bmod (2 ^ 32)

theorem Counted.emit (h : Counted o) (text : List UInt8) :
    Counted (text.foldl printkEmitChar o) ∧
      (text.foldl printkEmitChar o).emitted = o.emitted ++ text := by
  refine ⟨?_, emitted_foldl text o⟩
  induction text generalizing o with
  | nil => exact h
  | cons ch text ih =>
    refine ih ?_
    simp only [Counted, printkEmitChar, List.length_append, List.length_singleton,
      Nat.cast_add, Nat.cast_one] at h ⊢
    rw [h, Int.bmod_add_bmod]

/-! ### The cursor -/

/-- The memory from `pos` on holds the bytes and a terminator behind them. -/
def Spells (fmt : ℕ → UInt8) : ℕ → List UInt8 → Prop
  | pos, [] => fmt pos = 0
  | pos, b :: bytes => fmt pos = b ∧ b ≠ 0 ∧ Spells fmt (pos + 1) bytes

/-- The scanner went on in the string, from where `bytes` was left to where `rest` is, and read
nothing behind the terminator. -/
structure Moved (fmt : ℕ → UInt8) (s : Scanner) (bytes : List UInt8) (s' : Scanner)
    (rest : List UInt8) : Prop where
  spells : Spells fmt s'.pos rest
  le : s.pos ≤ s'.pos
  length : s'.pos + rest.length = s.pos + bytes.length
  next : s'.next = s.next
  out : s'.out = s.out
  reads : ∀ r ∈ s'.reads, r ∈ s.reads ∨ r ≤ s.pos + bytes.length

variable {fmt : ℕ → UInt8} {s s' s'' : Scanner} {bytes rest rest' : List UInt8} {f g : Format}

theorem Moved.trans (h : Moved fmt s bytes s' rest) (h' : Moved fmt s' rest s'' rest') :
    Moved fmt s bytes s'' rest' where
  spells := h'.spells
  le := Nat.le_trans h.le h'.le
  length := h'.length.trans h.length
  next := h'.next.trans h.next
  out := h'.out.trans h.out
  reads r hr := by
    rcases h'.reads r hr with hold | hnew
    · exact h.reads r hold
    · exact .inr (h.length ▸ hnew)

theorem Moved.read (h : Spells fmt s.pos bytes) : Moved fmt s bytes s.read bytes where
  spells := h
  le := Nat.le_refl _
  length := rfl
  next := rfl
  out := rfl
  reads r hr := by
    rcases List.mem_append.mp hr with hold | hnew
    · exact .inl hold
    · rw [List.mem_singleton.mp hnew]
      exact .inr (Nat.le_add_right _ _)

theorem Moved.advance {b : UInt8} (h : Spells fmt s.pos (b :: bytes)) :
    Moved fmt s (b :: bytes) s.advance bytes where
  spells := h.2.2
  le := Nat.le_succ _
  length := by
    rw [List.length_cons]
    exact Nat.add_right_comm _ _ _
  next := rfl
  out := rfl
  reads r hr := .inl hr

theorem Moved.readAdvance {b : UInt8} (h : Spells fmt s.pos (b :: bytes)) :
    Moved fmt s (b :: bytes) s.read.advance bytes :=
  (Moved.read h).trans (.advance h)

theorem Moved.length_le (h : Moved fmt s bytes s' rest) : rest.length ≤ bytes.length := by
  have hle := h.le
  have hlen := h.length
  omega

theorem Spells.head {b : UInt8} (h : Spells fmt s.pos (b :: bytes)) : fmt s.pos = b := h.1

/-! ### Inside a directive -/

/-- Two states that differ at most inside a directive. -/
def Agree (f g : Format) : Prop := f.mode = .text ∨ g.mode = .text → f = g

theorem Agree.trans {k : Format} (h : Agree f g) (h' : Agree g k) : Agree f k := by
  rintro (hf | hk)
  · have hfg := h (.inl hf)
    exact hfg.trans (h' (.inl (hfg ▸ hf)))
  · have hgk := h' (.inr hk)
    exact (h (.inr (hgk ▸ hk))).trans hgk

/-- The fold from two states that treat the next byte alike. -/
theorem agree_foldl (hf : f.mode ≠ .text) (hg : g.mode ≠ .text)
    (h : ∀ b ∈ bytes.head?, f.step args b = g.step args b) :
    Agree (bytes.foldl (Format.step args) f) (bytes.foldl (Format.step args) g) := by
  cases bytes with
  | nil => exact fun hmode => hmode.elim (fun h => absurd h hf) fun h => absurd h hg
  | cons b bytes =>
    intro _
    rw [List.foldl_cons, List.foldl_cons, h b rfl]

/-- A scanning loop stops at the first byte that does not satisfy its condition. -/
theorem scanWhile_spec {α : Type} {p : UInt8 → Prop} [DecidablePred p] (step : α → UInt8 → α)
    (hp : ¬p 0) (h : Spells fmt s.pos bytes) {n : ℕ} (hn : bytes.length < n) (acc : α) :
    ∃ s' taken rest, bytes = taken ++ rest ∧ (∀ b ∈ taken, p b) ∧ (∀ b ∈ rest.head?, ¬p b) ∧
      Moved fmt s bytes s' rest ∧ scanWhile p step fmt n s acc = .ok (s', taken.foldl step acc) := by
  induction bytes generalizing n s acc with
  | nil =>
    obtain ⟨n, rfl⟩ : ∃ m, n = m + 1 := ⟨n - 1, by omega⟩
    have hnot : ¬p (fmt s.pos) := (show fmt s.pos = 0 from h) ▸ hp
    exact ⟨s.read, [], [], rfl, by simp, by simp, .read h, by rw [scanWhile, if_neg hnot]; rfl⟩
  | cons b bytes ih =>
    obtain ⟨n, rfl⟩ : ∃ m, n = m + 1 := ⟨n - 1, by omega⟩
    rw [scanWhile, h.head]
    split
    next hb =>
      have hmoved := Moved.readAdvance h
      obtain ⟨s', taken, rest, rfl, htaken, hhead, hrest, hloop⟩ :=
        ih hmoved.spells (Nat.lt_of_succ_lt_succ hn) (step acc b)
      exact ⟨s', b :: taken, rest, rfl, List.forall_mem_cons.mpr ⟨hb, htaken⟩, hhead,
        hmoved.trans hrest, hloop⟩
    next hnot =>
      refine ⟨s.read, [], b :: bytes, rfl, by simp, ?_, .read h, rfl⟩
      rintro _ ⟨⟩
      exact hnot

theorem foldl_digits (args : VaList) {taken : List UInt8} (h : ∀ b ∈ taken, IsDigit b)
    (pad : UInt8) (width : ℕ) (longs : ℤ) (next : ℕ) (text : List UInt8) :
    taken.foldl (Format.step args) ⟨.width, ⟨pad, width, longs⟩, next, text⟩ =
      ⟨.width, ⟨pad, taken.foldl addDigit width, longs⟩, next, text⟩ := by
  induction taken generalizing width with
  | nil => rfl
  | cons b taken ih =>
    obtain ⟨hb, hrest⟩ := List.forall_mem_cons.mp h
    rw [List.foldl_cons, List.foldl_cons, ← ih hrest]
    simp only [Format.step, Format.stepWidth, hb, if_true]

theorem foldl_longs (args : VaList) {taken : List UInt8} (h : ∀ b ∈ taken, b = 'l'.toUInt8)
    (pad : UInt8) (width : ℕ) (longs : ℤ) (next : ℕ) (text : List UInt8) :
    taken.foldl (Format.step args) ⟨.length, ⟨pad, width, longs⟩, next, text⟩ =
      ⟨.length, ⟨pad, width, taken.foldl (fun l _ => (l + 1).bmod (2 ^ 32)) longs⟩, next,
        text⟩ := by
  induction taken generalizing longs with
  | nil => rfl
  | cons b taken ih =>
    obtain ⟨hb, hrest⟩ := List.forall_mem_cons.mp h
    rw [List.foldl_cons, List.foldl_cons, ← ih hrest]
    simp only [Format.step, Format.stepLength, hb, if_true]

/-- The digits and the modifiers of a directive, up to its conversion or the terminator. -/
theorem modifiers_spec (args : VaList) (h : Spells fmt s.pos bytes) {n : ℕ} (hn : bytes.length < n)
    (pad : UInt8) : ∃ s₁ w s₂ l rest, widthLoop fmt n s 0 = .ok (s₁, w) ∧
      longLoop fmt n s₁ 0 = .ok (s₂, l) ∧ Moved fmt s bytes s₂ rest ∧
      (∀ b ∈ rest.head?, b ≠ 'l'.toUInt8) ∧ ∀ next text,
        Agree (bytes.foldl (Format.step args) ⟨.width, ⟨pad, 0, 0⟩, next, text⟩)
          (rest.foldl (Format.step args) ⟨.length, ⟨pad, w, l⟩, next, text⟩) := by
  obtain ⟨s₁, digits, rest₁, rfl, hdigits, hhead₁, hmoved₁, hloop₁⟩ :=
    scanWhile_spec addDigit (p := IsDigit) (by decide) h hn 0
  rw [List.length_append] at hn
  obtain ⟨s₂, longs, rest₂, rfl, hlongs, hhead₂, hmoved₂, hloop₂⟩ :=
    scanWhile_spec (fun (l : ℤ) _ => (l + 1).bmod (2 ^ 32)) (p := (· = 'l'.toUInt8)) (by decide)
      hmoved₁.spells (n := n) (by omega) 0
  refine ⟨s₁, _, s₂, _, rest₂, hloop₁, hloop₂, hmoved₁.trans hmoved₂, hhead₂, fun next text => ?_⟩
  -- Behind the digits nothing distinguishes the two modes.
  rw [List.foldl_append, foldl_digits args hdigits, ← foldl_longs args hlongs, ← List.foldl_append]
  refine agree_foldl (by simp) (by simp) fun b hb => ?_
  simp only [Format.step, Format.stepWidth, hhead₁ b hb, if_false]
  rfl

/-- Between directives, the scanner has emitted the text so far. -/
structure Matches (f : Format) (s : Scanner) : Prop where
  mode : f.mode = .text
  next : f.next = s.next
  text : f.text = s.out.emitted
  counted : Counted s.out

/-- What a scanner in state `s` has to do next. -/
def Scanner.opened (s : Scanner) (mode : Mode) (d : Directive) : Format :=
  ⟨mode, d, s.next, s.out.emitted⟩

/-- The optional zero in front of the width. -/
theorem directive_zero (args : VaList) (h : Spells fmt s.pos bytes) (n : ℕ)
    (hpercent : ∀ b ∈ bytes.head?, b ≠ '%'.toUInt8) : ∃ s₀ pad bytes₀,
      (directive fmt args n s = (widthLoop fmt n s₀ 0).bind fun w =>
        (longLoop fmt n w.1 0).bind fun l =>
          convert args ⟨pad, w.2, l.2⟩ (fmt l.1.pos) l.1.read.advance) ∧
      Moved fmt s bytes s₀ bytes₀ ∧
      Agree (bytes.foldl (Format.step args) (s.opened .start ⟨0x20, 0, 0⟩))
        (bytes₀.foldl (Format.step args) (s.opened .width ⟨pad, 0, 0⟩)) := by
  by_cases hzero : fmt s.pos = 0x30
  · cases bytes with
    | nil => exact absurd (hzero.symm.trans h) (by decide)
    | cons b bytes =>
      obtain rfl : b = 0x30 := h.head.symm.trans hzero
      exact ⟨s.read.advance, 0x30, bytes, by simp [directive, hzero], .readAdvance h, fun _ => rfl⟩
  · refine ⟨s.read, 0x20, bytes, by simp [directive, hzero], .read h, ?_⟩
    refine agree_foldl (by simp [Scanner.opened]) (by simp [Scanner.opened]) fun b hb => ?_
    have hne : b ≠ 0x30 := by
      cases bytes with
      | nil => simp at hb
      | cons b' bytes =>
        obtain rfl := Option.mem_some_iff.mp hb
        exact h.head ▸ hzero
    simp only [Format.step, Scanner.opened, Format.stepStart, hpercent b hb, hne, if_false]
    rfl

/-- The part of a directive behind its `%`: a conversion is found and its text emitted, or the
terminator is taken for one and the cursor put behind it. -/
theorem directive_spec (args : VaList) (h : Spells fmt s.pos bytes) {n : ℕ}
    (hn : bytes.length < n) (hpercent : ∀ b ∈ bytes.head?, b ≠ '%'.toUInt8)
    (hcounted : Counted s.out) :
    ∃ s', directive fmt args n s = .ok s' ∧
      ((∃ rest g, Matches g s' ∧ Spells fmt s'.pos rest ∧
          s'.pos + rest.length = s.pos + bytes.length ∧ rest.length < bytes.length ∧
          (∀ r ∈ s'.reads, r ∈ s.reads ∨ r ≤ s.pos + bytes.length) ∧
          Agree (bytes.foldl (Format.step args) (s.opened .start ⟨0x20, 0, 0⟩))
            (rest.foldl (Format.step args) g)) ∨
        s'.pos = s.pos + bytes.length + 1 ∧
          (bytes.foldl (Format.step args) (s.opened .start ⟨0x20, 0, 0⟩)).mode ≠ .text) := by
  obtain ⟨s₀, pad, bytes₀, hstart, hmoved₀, hagree₀⟩ := directive_zero args h n hpercent
  obtain ⟨s₁, w, s₂, l, rest, hwidth, hlong, hmoved₂, hhead, hagree⟩ :=
    modifiers_spec args hmoved₀.spells (Nat.lt_of_le_of_lt hmoved₀.length_le hn) pad
  have hmoved := hmoved₀.trans hmoved₂
  replace hagree := hagree₀.trans (hagree s.next s.out.emitted)
  rw [hstart, hwidth]
  simp only [Except.bind, hlong, convert_eq]
  refine ⟨_, rfl, ?_⟩
  cases rest with
  | nil =>
    refine .inr ⟨congrArg (· + 1) hmoved.length, fun hmode => ?_⟩
    rw [hagree (.inl hmode)] at hmode
    simp at hmode
  | cons spec rest =>
    have hspec : fmt s₂.pos = spec := hmoved.spells.head
    have hread := hmoved.trans (.readAdvance hmoved.spells)
    obtain ⟨hcounted', hemitted⟩ := hcounted.emit (conversionText args s.next ⟨pad, w, l⟩ spec)
    refine .inl ⟨rest, (s.opened .length ⟨pad, w, l⟩).conversion args spec, ⟨rfl, ?_, ?_, ?_⟩,
      hread.spells, hread.length, Nat.lt_of_succ_le hmoved.length_le, hread.reads, ?_⟩
    · rw [hspec]
      exact congrArg (· + _) hread.next.symm
    · simp only [hspec, hread.next, hread.out, hemitted]
      rfl
    · simp only [hspec, hread.next, hread.out]
      exact hcounted'
    · have hl : spec ≠ 'l'.toUInt8 := hhead spec rfl
      rw [List.foldl_cons] at hagree
      simp only [Format.step, Format.stepLength, hl, if_false] at hagree
      exact hagree

/-! ### The whole format -/

theorem mem_read {r : ℕ} (h : r ∈ s.reads) : r ∈ s.read.reads := List.mem_append_left _ h

theorem scanWhile_reads {α : Type} {p : UInt8 → Prop} [DecidablePred p] {step : α → UInt8 → α}
    {n : ℕ} {acc acc' : α} (h : scanWhile p step fmt n s acc = .ok (s', acc')) {r : ℕ}
    (hr : r ∈ s.reads) : r ∈ s'.reads := by
  induction n generalizing s acc with
  | zero => cases h
  | succ n ih =>
    rw [scanWhile] at h
    split at h
    · exact ih h (mem_read hr)
    · obtain ⟨rfl, -⟩ := Prod.mk.inj (Except.ok.inj h)
      exact mem_read hr

theorem directive_reads {n : ℕ} (h : directive fmt args n s = .ok s') {r : ℕ} (hr : r ∈ s.reads) :
    r ∈ s'.reads := by
  obtain ⟨⟨s₁, w⟩, hwidth, h⟩ := Runs.bind_ok h
  obtain ⟨⟨s₂, l⟩, hlong, h⟩ := Runs.bind_ok h
  rw [convert_eq] at h
  obtain rfl := Except.ok.inj h
  have hzero : r ∈ (if fmt s.pos = 0x30 then s.read.advance else s.read).reads := by
    split <;> exact mem_read hr
  exact mem_read (scanWhile_reads hlong (scanWhile_reads hwidth hzero))

/-- Every round reads at the cursor, and what was read stays on record. -/
theorem formatLoop_reads {n : ℕ} (h : formatLoop fmt args n s = .ok s') {r : ℕ}
    (hr : r ∈ s.read.reads) : r ∈ s'.reads := by
  induction n generalizing s with
  | zero => cases h
  | succ n ih =>
    rw [formatLoop] at h
    dsimp only at h
    split_ifs at h
    · obtain rfl := Except.ok.inj h
      exact hr
    · exact ih h (mem_read hr)
    · exact ih h (mem_read (mem_read (s := s.read.advance) hr))
    · obtain ⟨s₁, hdirective, h⟩ := Runs.bind_ok h
      exact ih h (mem_read (directive_reads hdirective (mem_read hr)))

/-- What becomes of a scanner that has `bytes` before it when a reader of single bytes ends in
state `g`. -/
structure Ends (fmt : ℕ → UInt8) (args : VaList) (n : ℕ) (s : Scanner) (bytes : List UInt8)
    (g : Format) : Prop where
  closed : g.mode = .text → ∃ s', formatLoop fmt args n s = .ok s' ∧ s'.out.emitted = g.text ∧
    Counted s'.out ∧ ∀ r ∈ s'.reads, r ∈ s.reads ∨ r ≤ s.pos + bytes.length
  opened : g.mode ≠ .text → ∀ s', formatLoop fmt args n s = .ok s' →
    s.pos + bytes.length + 1 ∈ s'.reads

/-- One round of the loop. -/
theorem Ends.round {m n : ℕ} (h : Ends fmt args m s' rest g)
    (hloop : formatLoop fmt args n s = formatLoop fmt args m s')
    (hlength : s'.pos + rest.length = s.pos + bytes.length)
    (hreads : ∀ r ∈ s'.reads, r ∈ s.reads ∨ r ≤ s.pos + bytes.length) (hagree : Agree f g) :
    Ends fmt args n s bytes f where
  closed hmode := by
    obtain rfl := hagree (.inl hmode)
    obtain ⟨s'', hok, htext, hcounted, hin⟩ := h.closed hmode
    refine ⟨s'', hloop.trans hok, htext, hcounted, fun r hr => ?_⟩
    rcases hin r hr with hold | hnew
    · exact hreads r hold
    · exact .inr (hlength ▸ hnew)
  opened hmode s'' hok := by
    have hopen : g.mode ≠ .text := fun hg => hmode (hagree (.inr hg) ▸ hg)
    exact hlength ▸ h.opened hopen s'' (hloop.symm.trans hok)

/-- A character is emitted and the cursor moved. -/
theorem Matches.emitChar (hcounted : Counted s.out) (d : Directive) (ch : UInt8) :
    Matches ⟨.text, d, s.next, s.out.emitted ++ [ch]⟩ (s.emitChar ch).advance where
  mode := rfl
  next := rfl
  text := rfl
  counted := (hcounted.emit [ch]).1

/-- The terminator was taken for a conversion: the next round reads behind it. -/
theorem ends_behind {m n : ℕ} (hloop : formatLoop fmt args n s = formatLoop fmt args m s')
    (hpos : s'.pos = s.pos + bytes.length + 1) (hmode : g.mode ≠ .text) :
    Ends fmt args n s bytes g where
  closed hg := absurd hg hmode
  opened _ s'' hok := by
    rw [← hpos]
    exact formatLoop_reads (hloop.symm.trans hok)
      (List.mem_append_right _ (List.mem_singleton_self _))

/-- What `n` rounds of the loop do, from any place in a format that they suffice for. -/
def Rounds (fmt : ℕ → UInt8) (args : VaList) (n : ℕ) : Prop :=
  ∀ {s : Scanner} {bytes : List UInt8} {f : Format}, Spells fmt s.pos bytes → bytes.length < n →
    Matches f s → Ends fmt args n s bytes (bytes.foldl (Format.step args) f)

section
variable {n : ℕ} {b : UInt8}

/-- A round at a character that opens no directive. -/
theorem Rounds.text (ih : Rounds fmt args n) (h : Spells fmt s.pos (b :: bytes))
    (hn : bytes.length < n) (hm : Matches f s) (hpercent : b ≠ '%'.toUInt8) :
    Ends fmt args (n + 1) s (b :: bytes) (bytes.foldl (Format.step args) (f.step args b)) := by
  have hmoved : Moved fmt s (b :: bytes) s.read.advance bytes := .readAdvance h
  have htext : f.step args b = ⟨.text, f.directive, s.next, s.out.emitted ++ [b]⟩ := by
    simp only [Format.step, hm.mode, hpercent, if_false, hm.next, hm.text]
  have hround : formatLoop fmt args (n + 1) s =
      formatLoop fmt args n (s.read.emitChar b).advance := by
    rw [formatLoop, h.head, if_neg h.2.1, if_pos hpercent]
  rw [htext]
  have hemit := Matches.emitChar (s := s.read) hm.counted f.directive b
  exact (ih (s := (s.read.emitChar b).advance) hmoved.spells hn hemit).round hround
    hmoved.length hmoved.reads fun _ => rfl

theorem Matches.step_percent (hm : Matches f s) :
    f.step args '%'.toUInt8 = s.opened .start ⟨0x20, 0, 0⟩ := by
  simp only [Format.step, hm.mode, if_true, hm.next, hm.text, Scanner.opened]

theorem formatLoop_percent (args : VaList) (n : ℕ) (h : Spells fmt s.pos ('%'.toUInt8 :: bytes)) :
    formatLoop fmt args (n + 1) s =
      if fmt s.read.advance.pos = '%'.toUInt8 then
        formatLoop fmt args n ((s.read.advance.read.emitChar (fmt s.read.advance.pos)).advance)
      else (directive fmt args n s.read.advance.read).bind (formatLoop fmt args n) := by
  rw [formatLoop, h.head, if_neg h.2.1, if_neg (not_not.mpr rfl)]

/-- A round at two percent signs, which emits the second. -/
theorem Rounds.percent (ih : Rounds fmt args n)
    (h : Spells fmt s.pos ('%'.toUInt8 :: '%'.toUInt8 :: bytes)) (hn : bytes.length < n)
    (hm : Matches f s) :
    Ends fmt args (n + 1) s ('%'.toUInt8 :: '%'.toUInt8 :: bytes)
      (bytes.foldl (Format.step args) ((f.step args '%'.toUInt8).step args '%'.toUInt8)) := by
  have hmoved := Moved.readAdvance h
  have hsecond : fmt s.read.advance.pos = '%'.toUInt8 := hmoved.spells.head
  have hround := formatLoop_percent args n h
  rw [if_pos hsecond, hsecond] at hround
  have hread := hmoved.trans (.read hmoved.spells)
  have hnext := hread.trans (.advance hread.spells)
  have hemit := Matches.emitChar (s := s.read.advance.read) hm.counted ⟨0x20, 0, 0⟩ '%'.toUInt8
  rw [hm.step_percent]
  exact (ih (s := (s.read.advance.read.emitChar '%'.toUInt8).advance) hnext.spells hn
    hemit).round hround hnext.length hnext.reads fun _ => rfl

/-- A round at a directive, which may run into the terminator. -/
theorem Rounds.directive (ih : Rounds fmt args n)
    (h : Spells fmt s.pos ('%'.toUInt8 :: bytes)) (hn : bytes.length < n) (hm : Matches f s)
    (hhead : ∀ b ∈ bytes.head?, b ≠ '%'.toUInt8) :
    Ends fmt args (n + 1) s ('%'.toUInt8 :: bytes)
      (bytes.foldl (Format.step args) (f.step args '%'.toUInt8)) := by
  have hmoved := Moved.readAdvance h
  have hread := hmoved.trans (.read hmoved.spells)
  have hsecond : fmt s.read.advance.pos ≠ '%'.toUInt8 := by
    cases bytes with
    | nil =>
      have hend : fmt s.read.advance.pos = 0 := hmoved.spells
      rw [hend]
      decide
    | cons b' bytes =>
      rw [hmoved.spells.head]
      exact hhead b' rfl
  have hround := formatLoop_percent args n h
  obtain ⟨s', hdirective, hcase⟩ := directive_spec args (s := s.read.advance.read)
    hmoved.spells hn hhead hm.counted
  rw [if_neg hsecond, hdirective] at hround
  rw [hm.step_percent]
  rcases hcase with ⟨rest, g, hmatches, hspells, hlength, hlt, hreads, hagree⟩ | ⟨hpos, hmode⟩
  · refine (ih hspells (by omega) hmatches).round hround (hlength.trans hmoved.length) ?_ hagree
    intro r hr
    rcases hreads r hr with hold | hnew
    · exact hread.reads r hold
    · exact .inr (hmoved.length ▸ hnew)
  · exact ends_behind hround (hpos.trans (congrArg (· + 1) hmoved.length)) hmode

end

theorem formatLoop_spec (args : VaList) {n : ℕ} (h : Spells fmt s.pos bytes)
    (hn : bytes.length < n) (hm : Matches f s) :
    Ends fmt args n s bytes (bytes.foldl (Format.step args) f) := by
  induction n generalizing s bytes f with
  | zero => exact absurd hn (Nat.not_lt_zero _)
  | succ n ih =>
    have hrounds : Rounds fmt args n := fun h hn hm => ih h hn hm
    cases bytes with
    | nil =>
      have hend : fmt s.pos = 0 := h
      refine ⟨fun _ => ⟨s.read, ?_, hm.text.symm, hm.counted, (Moved.read h).reads⟩, fun hmode => ?_⟩
      · rw [formatLoop, if_pos hend]
      · exact absurd hm.mode hmode
    | cons b bytes =>
      rw [List.length_cons] at hn
      by_cases hpercent : b = '%'.toUInt8
      · subst hpercent
        by_cases hhead : bytes.head? = some '%'.toUInt8
        · obtain ⟨rest, rfl⟩ := List.head?_eq_some_iff.mp hhead
          rw [List.length_cons] at hn
          exact hrounds.percent h (by omega) hm
        · refine hrounds.directive h (by omega) hm fun b hb hsecond => hhead ?_
          rw [← hsecond]
          exact hb
      · exact hrounds.text h (by omega) hm hpercent

/-! ### More rounds -/

theorem scanWhile_mono {α : Type} {p : UInt8 → Prop} [DecidablePred p] {step : α → UInt8 → α}
    {m n : ℕ} {acc : α} {r : Scanner × α} (hle : n ≤ m)
    (h : scanWhile p step fmt n s acc = .ok r) : scanWhile p step fmt m s acc = .ok r := by
  induction n generalizing m s acc with
  | zero => cases h
  | succ n ih =>
    obtain ⟨m, rfl⟩ : ∃ k, m = k + 1 := ⟨m - 1, by omega⟩
    rw [scanWhile] at h ⊢
    split at h
    next hp =>
      rw [if_pos hp]
      exact ih (Nat.le_of_succ_le_succ hle) h
    next hp =>
      rw [if_neg hp]
      exact h

theorem directive_mono {m n : ℕ} (hle : n ≤ m) (h : directive fmt args n s = .ok s') :
    directive fmt args m s = .ok s' := by
  obtain ⟨w, hwidth, h⟩ := Runs.bind_ok h
  obtain ⟨l, hlong, h⟩ := Runs.bind_ok h
  unfold directive
  dsimp only
  rw [widthLoop, scanWhile_mono hle hwidth, Except.bind, longLoop, scanWhile_mono hle hlong]
  exact h

theorem formatLoop_mono {m n : ℕ} (hle : n ≤ m) (h : formatLoop fmt args n s = .ok s') :
    formatLoop fmt args m s = .ok s' := by
  induction n generalizing m s with
  | zero => cases h
  | succ n ih =>
    obtain ⟨m, rfl⟩ : ∃ k, m = k + 1 := ⟨m - 1, by omega⟩
    have hle' : n ≤ m := Nat.le_of_succ_le_succ hle
    rw [formatLoop] at h ⊢
    dsimp only at h ⊢
    split_ifs at h ⊢
    · exact h
    · exact ih hle' h
    · exact ih hle' h
    · obtain ⟨s₁, hdirective, h⟩ := Runs.bind_ok h
      rw [directive_mono hle' hdirective]
      exact ih hle' h

/-- The call returns `ret` and leaves the scanner in state `s`. -/
def Returns (fmt : ℕ → UInt8) (args : VaList) (o : Output) (ret : ℤ) (s : Scanner) : Prop :=
  ∃ rounds, ∀ fuel, rounds ≤ fuel →
    vprintkFormat fuel (some fmt) args o.ring o.ready o.console = .ok (ret, s)

/-- A number of characters fits into the `int`. -/
theorem bmod_eq_self_iff (n : ℕ) : (n : ℤ).bmod (2 ^ 32) = n ↔ n < 2 ^ 31 := by
  constructor
  · intro h
    have hlt := Int.bmod_lt (x := (n : ℤ)) (m := 2 ^ 32) (by decide)
    rw [h] at hlt
    omega
  · intro h
    exact Int.bmod_eq_of_le (by omega) (by omega)

end

/-- `vprintk_format` reads no byte behind the terminator and returns the number of characters it
has emitted exactly if the string does not end inside a directive and its text has fewer than
`2 ^ 31` characters. -/
theorem printk_format_inside_iff {fmt : ℕ → UInt8} {bytes : List UInt8} (h : Spells fmt 0 bytes)
    (args : VaList) (o : Output) :
    (∃ ret s, Returns fmt args o ret s ∧ (∀ r ∈ s.reads, r ≤ bytes.length) ∧
        ret = s.out.emitted.length) ↔
      (Format.run args bytes).mode = .text ∧ (formatText args bytes).length < 2 ^ 31 := by
  have hmatches : Matches .begin ⟨0, [], 0, ⟨o.ring, o.ready, o.console, 0, []⟩⟩ :=
    ⟨rfl, rfl, rfl, by simp [Counted]⟩
  have hends {fuel : ℕ} (hfuel : bytes.length < fuel) := formatLoop_spec args h hfuel hmatches
  constructor
  · rintro ⟨ret, s, ⟨rounds, hret⟩, hreads, hcount⟩
    obtain ⟨s', hloop, hpair⟩ := Runs.map_ok (hret (rounds + (bytes.length + 1)) (by omega))
    obtain ⟨rfl, rfl⟩ := Prod.mk.inj hpair
    have hend := @hends (rounds + (bytes.length + 1)) (by omega)
    by_cases hmode : (Format.run args bytes).mode = .text
    · obtain ⟨s'', hloop', htext, hcounted, -⟩ := hend.closed hmode
      obtain rfl := Except.ok.inj (hloop.symm.trans hloop')
      have hsmall := (bmod_eq_self_iff _).mp (hcounted.symm.trans hcount)
      rw [htext] at hsmall
      exact ⟨hmode, hsmall⟩
    · have hbehind := hreads _ (hend.opened hmode s' hloop)
      omega
  · rintro ⟨hmode, hlength⟩
    obtain ⟨s, hloop, htext, hcounted, hreads⟩ := (@hends (bytes.length + 1) (by omega)).closed hmode
    refine ⟨s.out.count, s, ⟨bytes.length + 1, fun fuel hfuel => ?_⟩, fun r hr => ?_, ?_⟩
    · rw [vprintkFormat, formatLoop_mono hfuel hloop]
      rfl
    · rcases hreads r hr with hnone | hle
      · exact absurd hnone (List.not_mem_nil)
      · exact (Nat.zero_add bytes.length) ▸ hle
    · rw [hcounted, bmod_eq_self_iff, htext]
      exact hlength

/-- Arguments that are all the string `hi`, or zero. -/
def sampleArgs : VaList where
  int _ := 0
  unsignedInt _ := 0
  long _ := 0
  unsignedLong _ := 0
  string _ := some ⟨[0x68, 0x69], by decide⟩
  pointer _ := 0

/-- Bytes with zeros behind them. -/
def stored (bytes : List UInt8) (i : ℕ) : UInt8 := bytes.getD i 0

def noOutput : Output := ⟨⟨fun _ => 0, 0, 0, 0⟩, false, [], 0, []⟩

/-- The format `%s`. -/
theorem printk_format_inside_iff_string : ∃ ret s,
    Returns (stored [0x25, 0x73]) sampleArgs noOutput ret s ∧
      (∀ r ∈ s.reads, r ≤ 2) ∧ ret = s.out.emitted.length := by
  have hspells : Spells (stored [0x25, 0x73]) 0 [0x25, 0x73] :=
    ⟨rfl, by decide, rfl, by decide, rfl⟩
  exact (printk_format_inside_iff hspells sampleArgs noOutput).mpr ⟨by decide, by decide⟩

/-- The format `%` with the letter `A` in the byte behind its terminator: that letter is read and
emitted. -/
theorem printk_reads_behind_percent :
    Spells (stored [0x25, 0, 0x41]) 0 [0x25] ∧
      ((vprintkFormat 9 (some (stored [0x25, 0, 0x41])) sampleArgs noOutput.ring false []).toOption.map
        fun r => (r.1, r.2.out.emitted, r.2.reads)) =
          some (2, [0x25, 0x41], [0, 1, 1, 1, 1, 1, 2, 3]) :=
  ⟨⟨rfl, by decide, rfl⟩, by decide⟩

end Tianole.Printk
