import Tianole.Input.Modifiers
import Tianole.Tty.Keysym

/-! The keymap of `drivers/tty/keymap.c`, and the text that the key transitions of a keyboard
mean. -/
namespace Tianole.Input

/-- `enum input_key_code`. -/
def Key.code : Key → UInt16
  | .reserved => 0 | .esc => 1 | .key1 => 2 | .key2 => 3 | .key3 => 4 | .key4 => 5 | .key5 => 6
  | .key6 => 7 | .key7 => 8 | .key8 => 9 | .key9 => 10 | .key0 => 11 | .minus => 12
  | .equal => 13 | .backspace => 14 | .tab => 15 | .q => 16 | .w => 17 | .e => 18 | .r => 19
  | .t => 20 | .y => 21 | .u => 22 | .i => 23 | .o => 24 | .p => 25 | .leftbrace => 26
  | .rightbrace => 27 | .enter => 28 | .leftctrl => 29 | .a => 30 | .s => 31 | .d => 32
  | .f => 33 | .g => 34 | .h => 35 | .j => 36 | .k => 37 | .l => 38 | .semicolon => 39
  | .apostrophe => 40 | .grave => 41 | .leftshift => 42 | .backslash => 43 | .z => 44 | .x => 45
  | .c => 46 | .v => 47 | .b => 48 | .n => 49 | .m => 50 | .comma => 51 | .dot => 52
  | .slash => 53 | .rightshift => 54 | .kpasterisk => 55 | .leftalt => 56 | .space => 57
  | .capslock => 58 | .f1 => 59 | .f2 => 60 | .f3 => 61 | .f4 => 62 | .f5 => 63 | .f6 => 64
  | .f7 => 65 | .f8 => 66 | .f9 => 67 | .f10 => 68 | .numlock => 69 | .scrolllock => 70
  | .kp7 => 71 | .kp8 => 72 | .kp9 => 73 | .kpminus => 74 | .kp4 => 75 | .kp5 => 76 | .kp6 => 77
  | .kpplus => 78 | .kp1 => 79 | .kp2 => 80 | .kp3 => 81 | .kp0 => 82 | .kpdot => 83 | .f11 => 87
  | .f12 => 88 | .kpenter => 96 | .rightctrl => 97 | .kpslash => 98 | .rightalt => 100
  | .home => 102 | .up => 103 | .pageup => 104 | .left => 105 | .right => 106 | .end => 107
  | .down => 108 | .pagedown => 109 | .insert => 110 | .delete => 111

end Tianole.Input

namespace Tianole.Tty
open Input

/-! ### The keymap -/

/-- `struct tty_keymap_entry`; `letter` is its only flag. -/
structure TtyKeymapEntry where
  code : UInt16
  normal : UInt32
  shifted : UInt32
  type : KeysymType
  letter : Bool

namespace TtyKeymapEntry

def alpha (key : Key) (normal shifted : Char) : TtyKeymapEntry :=
  ⟨key.code, normal.val, shifted.val, .unicode, true⟩

def symbol (key : Key) (normal shifted : Char) : TtyKeymapEntry :=
  ⟨key.code, normal.val, shifted.val, .unicode, false⟩

/-- The values are those of `enum tty_function_key`. -/
def function (key : Key) (normal shifted : UInt32) : TtyKeymapEntry :=
  ⟨key.code, normal, shifted, .function, false⟩

end TtyKeymapEntry

def usKeymap : List TtyKeymapEntry :=
  [.alpha .a 'a' 'A', .alpha .b 'b' 'B', .alpha .c 'c' 'C', .alpha .d 'd' 'D',
   .alpha .e 'e' 'E', .alpha .f 'f' 'F', .alpha .g 'g' 'G', .alpha .h 'h' 'H',
   .alpha .i 'i' 'I', .alpha .j 'j' 'J', .alpha .k 'k' 'K', .alpha .l 'l' 'L',
   .alpha .m 'm' 'M', .alpha .n 'n' 'N', .alpha .o 'o' 'O', .alpha .p 'p' 'P',
   .alpha .q 'q' 'Q', .alpha .r 'r' 'R', .alpha .s 's' 'S', .alpha .t 't' 'T',
   .alpha .u 'u' 'U', .alpha .v 'v' 'V', .alpha .w 'w' 'W', .alpha .x 'x' 'X',
   .alpha .y 'y' 'Y', .alpha .z 'z' 'Z', .symbol .key0 '0' ')', .symbol .key1 '1' '!',
   .symbol .key2 '2' '@', .symbol .key3 '3' '#', .symbol .key4 '4' '$', .symbol .key5 '5' '%',
   .symbol .key6 '6' '^', .symbol .key7 '7' '&', .symbol .key8 '8' '*', .symbol .key9 '9' '(',
   .symbol .enter '\n' '\n', .symbol .backspace '\x08' '\x08', .symbol .tab '\t' '\t',
   .symbol .space ' ' ' ', .symbol .minus '-' '_', .symbol .equal '=' '+',
   .symbol .leftbrace '[' '\x7b', .symbol .rightbrace ']' '\x7d', .symbol .backslash '\x5c' '|',
   .symbol .semicolon ';' ':', .symbol .apostrophe '\x27' '\x22', .symbol .grave '\x60' '~',
   .symbol .comma ',' '<', .symbol .dot '.' '>', .symbol .slash '/' '?', .function .f1 0 10,
   .function .f2 1 11, .function .f3 2 2, .function .f4 3 3, .function .f5 4 4, .function .f6 5 5,
   .function .f7 6 6, .function .f8 7 7, .function .f9 8 8, .function .f10 9 9,
   .function .f11 10 10, .function .f12 11 11, .function .home 20 20, .function .insert 21 21,
   .function .delete 22 22, .function .end 23 23, .function .pageup 24 24,
   .function .pagedown 25 25, .function .up 26 26, .function .down 27 27, .function .left 28 28,
   .function .right 29 29]

def keysymFor (code : UInt16) (shifted caps : Bool) : Option TtyKeysym :=
  (usKeymap.find? fun entry => entry.code = code).map fun entry =>
    let shifted := if entry.letter then shifted != caps else shifted
    ⟨entry.type, if shifted then entry.shifted else entry.normal⟩

/-- `none` stands for the return value 0. -/
def ttyKeyEventToKeysym (code : UInt16) (modifiers : BitVec 32) : Option TtyKeysym :=
  keysymFor code (decide (modifiers &&& inputModifierShift ≠ 0))
    (decide (modifiers &&& inputModifierCapslock ≠ 0))

/-- The bytes that a symbol sends to the terminal; no symbol sends none. -/
def symbolText : Option TtyKeysym → List UInt8
  | none => []
  | some sym => keysymBytes (some sym)

/-- What a report of the driver sends to the terminal: releases send nothing. -/
def reportText (report : Report) : List UInt8 :=
  if report.pressed then symbolText (ttyKeyEventToKeysym report.key.code report.modifiers) else []

/-! ### What is typed -/

/-- The four rows of a US keyboard with characters on the keys: below, and above with shift. -/
def usRows : List (List Key × String × String) :=
  [([.grave, .key1, .key2, .key3, .key4, .key5, .key6, .key7, .key8, .key9, .key0, .minus, .equal],
    "\x601234567890-=", "~!@#$%^&*()_+"),
   ([.q, .w, .e, .r, .t, .y, .u, .i, .o, .p, .leftbrace, .rightbrace, .backslash],
    "qwertyuiop[]\\", "QWERTYUIOP\x7b\x7d|"),
   ([.a, .s, .d, .f, .g, .h, .j, .k, .l, .semicolon, .apostrophe], "asdfghjkl;'", "ASDFGHJKL:\""),
   ([.z, .x, .c, .v, .b, .n, .m, .comma, .dot, .slash], "zxcvbnm,./", "ZXCVBNM<>?")]

def legends : List (Key × Char × Char) :=
  usRows.flatMap fun (keys, below, above) => keys.zip (below.toList.zip above.toList)

/-- The keys that send one character, whatever else is held. -/
def plainKeys : List (Key × Char) :=
  [(.enter, '\n'), (.backspace, '\x08'), (.tab, '\t'), (.space, ' ')]

/-- The escape sequences of the function and the cursor keys. -/
def sequences : List (Key × String) :=
  [(.f1, "[[A"), (.f2, "[[B"), (.f3, "[[C"), (.f4, "[[D"), (.f5, "[[E"), (.f6, "[17~"),
   (.f7, "[18~"), (.f8, "[19~"), (.f9, "[20~"), (.f10, "[21~"), (.f11, "[23~"), (.f12, "[24~"),
   (.home, "[1~"), (.insert, "[2~"), (.delete, "[3~"), (.end, "[4~"), (.pageup, "[5~"),
   (.pagedown, "[6~"), (.up, "[A"), (.down, "[B"), (.right, "[C"), (.left, "[D")]

/-- With shift, the first two function keys are the last two. -/
def shiftedKey (key : Key) : Key :=
  match key with
  | .f1 => .f11
  | .f2 => .f12
  | _ => key

/-- The text on a key. The caps lock reverses the shift of letters, and of no other keys. -/
def keyText (key : Key) (shift capsLock : Bool) : List UInt8 :=
  match legends.lookup key with
  | some (below, above) =>
      let upper := if below.isAlpha then shift != capsLock else shift
      [UInt8.ofNat (if upper then above else below).toNat]
  | none =>
      match plainKeys.lookup key with
      | some ch => [UInt8.ofNat ch.toNat]
      | none => ((sequences.lookup (if shift then shiftedKey key else key)).map escape).getD []

/-- A keyboard: which keys are down, and whether its caps lock is on. -/
structure Board where
  down : Key → Bool
  capsLock : Bool

namespace Board

def start : Board := ⟨fun _ => false, false⟩

def after (b : Board) (scan : Scan) : Board where
  down key := track key (b.down key) scan
  capsLock := if scan.transition = some (.capslock, true) then !b.capsLock else b.capsLock

def run (b : Board) (scans : List Scan) : Board := scans.foldl after b

def shift (b : Board) : Bool := b.down .leftshift || b.down .rightshift

/-- The text of one transition, on the board after it. -/
def text (b : Board) (scan : Scan) : List UInt8 :=
  match scan.transition with
  | some (key, true) => keyText key b.shift b.capsLock
  | _ => []

/-- The text that is typed. -/
def typed (b : Board) : List Scan → List UInt8
  | [] => []
  | scan :: scans => (b.after scan).text scan ++ (b.after scan).typed scans

end Board

section
variable {b : Board} {scans : List Scan} {scan : Scan} {modifiers : BitVec 32} {ch : UInt8}

@[simp] theorem Board.run_concat (b : Board) (scans : List Scan) (scan : Scan) :
    b.run (scans ++ [scan]) = (b.run scans).after scan := by
  simp [run]

theorem Board.typed_append (b : Board) (before after : List Scan) :
    b.typed (before ++ after) = b.typed before ++ (b.run before).typed after := by
  induction before generalizing b with
  | nil => rfl
  | cons scan before ih =>
    rw [List.cons_append, typed, typed, ih, List.append_assoc]
    rfl

theorem Board.run_down (scans : List Scan) : (Board.start.run scans).down = held scans := by
  induction scans using List.reverseRecOn with
  | nil => rfl
  | append_singleton scans scan ih =>
    funext key
    rw [run_concat, held_append, ← ih]
    rfl

/-! ### The keys -/

/-- The keymap has the layout. -/
theorem keysymFor_text (key : Key) (shift caps : Bool) :
    symbolText (keysymFor key.code shift caps) = keyText key shift caps := by
  have hall : ∀ n < 128, ∀ shift caps : Bool,
      symbolText (keysymFor (Key.ofNat n).code shift caps) = keyText (Key.ofNat n) shift caps := by
    decide +kernel
  have hlt : key.ctorIdx < 128 := by cases key <;> decide
  have htext := hall key.ctorIdx hlt shift caps
  rwa [Key.ofNat_ctorIdx] at htext

/-! ### The caps lock -/

theorem capslock_ne_zero_iff :
    modifiers &&& inputModifierCapslock ≠ 0 ↔ modifiers.getLsbD 3 = true := by
  have hne : BitVec.twoPow 32 3 ≠ 0#32 := by decide
  rw [inputModifierCapslock, ← BitVec.twoPow_eq, BitVec.and_twoPow]
  cases modifiers.getLsbD 3 <;> simp [hne]

/-- Only a press of the key changes the bit. -/
theorem update_capslock (key : Key) (pressed : Bool) :
    (ps2UpdateModifier modifiers key pressed).getLsbD 3 =
      if key = .capslock ∧ pressed = true then !modifiers.getLsbD 3 else modifiers.getLsbD 3 := by
  by_cases hkey : key = .capslock
  · subst hkey
    cases pressed with
    | true => simp [ps2UpdateModifier, inputModifierCapslock]
    | false => simp [ps2UpdateModifier]
  · have hpair (mask : BitVec 32) (hmask : mask[3] = false) :
        (holdModifier modifiers mask pressed).getLsbD 3 = modifiers.getLsbD 3 := by
      cases pressed <;> simp [holdModifier, hmask]
    simp only [ps2UpdateModifier, hkey, and_false, false_and, if_false]
    split_ifs
    · exact hpair _ (by decide)
    · exact hpair _ (by decide)
    · exact hpair _ (by decide)
    · simp [inputModifierNumlock]
    · simp [inputModifierScrolllock]
    · rfl

theorem capslock_bit (hv : ∀ scan ∈ scans, scan.Valid) :
    (ps2KeyboardWork .initial (encode scans)).modifiers.getLsbD 3 =
      (Board.start.run scans).capsLock := by
  induction scans using List.reverseRecOn with
  | nil => rfl
  | append_singleton scans scan ih =>
    have hbefore : ∀ scan ∈ scans, scan.Valid := fun other hm => hv other (by simp [hm])
    rw [work_append hbefore (hv scan (by simp)), Board.run_concat, Board.after, ← ih hbefore,
      Decoder.accept]
    cases ht : scan.transition with
    | none => simp
    | some step =>
      obtain ⟨key, pressed⟩ := step
      simp only [update_capslock, Option.some.injEq, Prod.mk.injEq]

/-! ### The text of the reports -/

/-- The bits of the driver say what the keyboard does. -/
theorem keysym_of_board (hv : ∀ scan ∈ scans, scan.Valid) (halone : ReleasesAlone scans)
    (code : UInt16) :
    ttyKeyEventToKeysym code (ps2KeyboardWork .initial (encode scans)).modifiers =
      keysymFor code (Board.start.run scans).shift (Board.start.run scans).capsLock := by
  have hall : ReleasesAlone (scans ++ []) := by rwa [List.append_nil]
  have hmatch := complete_of_alone hv hall .shift
  have hshift : decide ((ps2KeyboardWork .initial (encode scans)).modifiers &&&
      inputModifierShift ≠ 0) = (Board.start.run scans).shift := by
    rw [Bool.eq_iff_iff, decide_eq_true_iff, Board.shift, Board.run_down, Bool.or_eq_true]
    exact hmatch
  have hcaps : decide ((ps2KeyboardWork .initial (encode scans)).modifiers &&&
      inputModifierCapslock ≠ 0) = (Board.start.run scans).capsLock := by
    rw [Bool.eq_iff_iff, decide_eq_true_iff, capslock_ne_zero_iff, capslock_bit hv]
  rw [ttyKeyEventToKeysym, hshift, hcaps]

theorem reports_text (hv : ∀ scan ∈ scans, scan.Valid) (halone : ReleasesAlone scans) :
    (ps2KeyboardWork .initial (encode scans)).reports.flatMap reportText =
      Board.start.typed scans := by
  induction scans using List.reverseRecOn with
  | nil => rfl
  | append_singleton scans scan ih =>
    have hbefore : ∀ scan ∈ scans, scan.Valid := fun other hm => hv other (by simp [hm])
    have hfirst : ReleasesAlone scans := fun before other after heq =>
      halone before other (after ++ [scan]) (by simp [heq])
    have hsym := keysym_of_board hv halone
    rw [Board.typed_append, ← ih hbefore hfirst]
    rw [work_append hbefore (hv scan (by simp)), Board.run_concat] at *
    unfold Decoder.accept at *
    cases ht : scan.transition with
    | none => simp [Board.typed, Board.text, ht]
    | some step =>
      obtain ⟨key, pressed⟩ := step
      simp only [ht] at hsym ⊢
      cases pressed with
      | true => simp [Board.typed, Board.text, ht, reportText, hsym, keysymFor_text]
      | false => simp [Board.typed, Board.text, ht, reportText]

/-! ### Typing a text -/

theorem usKeymap_ascii : (usKeymap.all fun entry => [entry.normal, entry.shifted].all fun value =>
    (keysymBytes (some ⟨entry.type, value⟩)).all fun b => decide (b ≠ 0 ∧ b < 0x80)) = true := by
  decide +kernel

/-- The keymap sends no null bytes, and none outside ASCII. -/
theorem keysymFor_ascii (code : UInt16) (shifted caps : Bool) :
    ∀ b ∈ symbolText (keysymFor code shifted caps), b ≠ 0 ∧ b < 0x80 := by
  unfold keysymFor
  cases hfind : usKeymap.find? fun entry => entry.code = code with
  | none => simp [symbolText]
  | some entry =>
    have hall := List.all_eq_true.mp usKeymap_ascii entry (List.mem_of_find?_eq_some hfind)
    intro b hb
    refine of_decide_eq_true (List.all_eq_true.mp (List.all_eq_true.mp hall _ ?_) b hb)
    split_ifs <;> simp

theorem Board.typed_ascii (b : Board) (scans : List Scan) :
    ∀ ch ∈ b.typed scans, ch ≠ 0 ∧ ch < 0x80 := by
  induction scans generalizing b with
  | nil => simp [typed]
  | cons scan scans ih =>
    intro ch hch
    rcases List.mem_append.mp hch with hch | hch
    · unfold text at hch
      split at hch
      · rw [← keysymFor_text] at hch
        exact keysymFor_ascii _ _ _ ch hch
      · cases hch
    · exact ih _ ch hch

/-- Printable ASCII characters, the backspace, the tab and the newline. -/
def Typeable (ch : UInt8) : Prop := (0x20 ≤ ch ∧ ch ≤ 0x7e) ∨ ch = backspace ∨ ch = 9 ∨ ch = newline

instance (ch : UInt8) : Decidable (Typeable ch) := inferInstanceAs (Decidable (_ ∨ _))

theorem typeable_of_all {text : List UInt8}
    (h : text.all (fun ch => decide (Typeable ch)) = true) : ∀ ch ∈ text, Typeable ch :=
  fun ch hch => of_decide_eq_true (List.all_eq_true.mp h ch hch)

/-- The keys of the main block, up to the space bar: what each sends with and without shift. -/
def keyTable (caps : Bool) : List (List UInt8 × Fin 128 × Bool) :=
  ((List.finRange 128).take 0x3a).flatMap fun code => [false, true].map fun shift =>
    (symbolText (keysymFor (scanKey false code).code shift caps), code, shift)

/-- Pressing and releasing the key of a character, with the left shift key where it takes one. -/
def stroke (caps : Bool) (ch : UInt8) : List Scan :=
  match (keyTable caps).find? fun entry => entry.1 = [ch] with
  | none => []
  | some (_, code, shift) =>
      let key := [.key false code true, .key false code false]
      if shift then .key false 0x2a true :: key ++ [.key false 0x2a false] else key

def typing (caps : Bool) (text : List UInt8) : List Scan := text.flatMap (stroke caps)

/-- The characters that single keys send. -/
def keyChars (caps : Bool) : List ℕ :=
  (keyTable caps).filterMap fun entry => match entry.1 with
    | [ch] => some ch.toNat
    | _ => none

theorem keyChars_typeable (caps : Bool) : (List.range 256).all (fun n =>
    !decide (Typeable (UInt8.ofNat n)) || (keyChars caps).contains n) = true := by
  cases caps with
  | false => decide +kernel
  | true => decide +kernel

/-- Every such character has a key. -/
theorem keyTable_covers (caps : Bool) (h : Typeable ch) : ∃ code shift,
    ((keyTable caps).find? fun entry => entry.1 = [ch]) = some ([ch], code, shift) := by
  have hchar := List.all_eq_true.mp (keyChars_typeable caps) ch.toNat
    (List.mem_range.mpr ch.toNat_lt)
  rw [UInt8.ofNat_toNat, decide_eq_true h, Bool.not_true, Bool.false_or, List.contains_iff_mem,
    keyChars, List.mem_filterMap] at hchar
  obtain ⟨entry, hentry, htext⟩ := hchar
  have hfirst : entry.1 = [ch] := by
    split at htext
    next c hc => rw [hc, UInt8.toNat_inj.mp (Option.some.inj htext)]
    next => cases htext
  cases hfind : (keyTable caps).find? fun entry => entry.1 = [ch] with
  | none =>
    have hnone := List.find?_eq_none.mp hfind entry hentry
    exact absurd (decide_eq_true hfirst) hnone
  | some found =>
    have hsome := List.find?_some hfind
    have heq : found.1 = [ch] := of_decide_eq_true hsome
    exact ⟨found.2.1, found.2.2, by rw [← heq]⟩

theorem mem_keyTable {caps shift : Bool} {text : List UInt8} {code : Fin 128}
    (h : (text, code, shift) ∈ keyTable caps) :
    symbolText (keysymFor (scanKey false code).code shift caps) = text := by
  obtain ⟨c, -, hc⟩ := List.mem_flatMap.mp h
  obtain ⟨s, -, hs⟩ := List.mem_map.mp hc
  obtain ⟨htext, hcode⟩ := Prod.mk.inj hs
  obtain ⟨rfl, rfl⟩ := Prod.mk.inj hcode
  exact htext

/-- Keys that send nothing. -/
theorem keysymFor_silent (m : Modifier) (right shifted caps : Bool) :
    keysymFor (m.key right).code shifted caps = none ∧
      keysymFor Key.capslock.code shifted caps = none ∧
      keysymFor Key.reserved.code shifted caps = none := by
  refine ⟨?_, rfl, rfl⟩
  cases m <;> cases right <;> rfl

/-- A keyboard with no key down. -/
def Board.idle (caps : Bool) : Board := ⟨fun _ => false, caps⟩

/-- The strokes of a character. -/
theorem stroke_cases (caps : Bool) (h : Typeable ch) : ∃ code shift,
    symbolText (keysymFor (scanKey false code).code shift caps) = [ch] ∧
      stroke caps ch = if shift then [.key false 0x2a true, .key false code true,
        .key false code false, .key false 0x2a false]
      else [.key false code true, .key false code false] := by
  obtain ⟨code, shift, hfind⟩ := keyTable_covers caps h
  refine ⟨code, shift, mem_keyTable (List.mem_of_find?_eq_some hfind), ?_⟩
  rw [stroke, hfind]
  rfl

/-- A key that sends something is mapped, and is neither a modifier nor the caps lock. -/
theorem sending_key {code : Fin 128} {shift caps : Bool}
    (h : symbolText (keysymFor (scanKey false code).code shift caps) = [ch]) :
    scanKey false code ≠ .reserved ∧ scanKey false code ≠ .capslock ∧
      ∀ m right, scanKey false code ≠ Modifier.key m right := by
  have hnone (hsym : keysymFor (scanKey false code).code shift caps = none) : False := by
    rw [hsym] at h
    cases h
  refine ⟨?_, ?_, ?_⟩
  · intro heq
    rw [heq] at hnone
    exact hnone (keysymFor_silent .shift false _ _).2.2
  · intro heq
    rw [heq] at hnone
    exact hnone (keysymFor_silent .shift false _ _).2.1
  · intro m right heq
    rw [heq] at hnone
    exact hnone (keysymFor_silent m right _ _).1

theorem Board.after_key {code : Fin 128} (b : Board) (hcaps : scanKey false code ≠ .capslock)
    (pressed : Bool) : b.after (.key false code pressed) =
      ⟨Function.update b.down (scanKey false code) pressed, b.capsLock⟩ := by
  have htoggle : Scan.transition (.key false code pressed) ≠ some (.capslock, true) := by
    intro heq
    exact hcaps (Prod.mk.inj (Option.some.inj heq)).1
  rw [after, if_neg htoggle]
  congr 1
  funext key
  simp only [track, Scan.transition, Function.update_apply, eq_comm]

theorem Board.press_release {b : Board} {key : Key} (hup : b.down key = false) :
    (⟨Function.update (Function.update b.down key true) key false, b.capsLock⟩ : Board) = b := by
  rw [Function.update_idem, Function.update_eq_self_iff.mpr hup.symm]

/-- A key is pressed and released. -/
theorem Board.tap {code : Fin 128} {b : Board} (hcaps : scanKey false code ≠ .capslock)
    (hkey : ∀ m right, scanKey false code ≠ Modifier.key m right)
    (hup : b.down (scanKey false code) = false) :
    b.typed [.key false code true, .key false code false] =
        symbolText (keysymFor (scanKey false code).code b.shift b.capsLock) ∧
      b.run [.key false code true, .key false code false] = b := by
  have hleft : Key.leftshift ≠ scanKey false code := (hkey .shift false).symm
  have hright : Key.rightshift ≠ scanKey false code := (hkey .shift true).symm
  constructor
  · simp only [typed, b.after_key hcaps, text, Scan.transition, shift, List.append_nil,
      Function.update_of_ne hleft, Function.update_of_ne hright, keysymFor_text]
  · simp only [run, List.foldl_cons, List.foldl_nil, after_key _ hcaps]
    exact press_release hup

/-- The strokes of a character send it, and leave the keyboard as it was. -/
theorem stroke_typed (caps : Bool) (h : Typeable ch) :
    (Board.idle caps).typed (stroke caps ch) = [ch] ∧
      (Board.idle caps).run (stroke caps ch) = Board.idle caps := by
  obtain ⟨code, shift, htext, hstroke⟩ := stroke_cases caps h
  obtain ⟨-, hcaps, hkey⟩ := sending_key htext
  rw [hstroke]
  cases shift with
  | false =>
    obtain ⟨htyped, hrun⟩ := Board.tap (b := .idle caps) hcaps hkey rfl
    exact ⟨htyped.trans htext, hrun⟩
  | true =>
    -- The shift key goes down before the key, and up after it.
    let held : Board := ⟨Function.update (Board.idle caps).down .leftshift true, caps⟩
    have hdown : (Board.idle caps).after (.key false 0x2a true) = held :=
      Board.after_key _ (by decide) true
    have hup : held.after (.key false 0x2a false) = .idle caps := by
      rw [Board.after_key _ (by decide) false]
      exact Board.press_release (b := .idle caps) rfl
    have hfree : held.down (scanKey false code) = false :=
      Function.update_of_ne (hkey .shift false) _ _
    obtain ⟨htyped, hrun⟩ := Board.tap hcaps hkey hfree
    have hshift : held.shift = true := by simp [held, Board.shift]
    rw [hshift] at htyped
    have hsilent : held.text (.key false 0x2a true) = [] := by
      show keyText (Modifier.key .shift false) held.shift held.capsLock = []
      rw [← keysymFor_text, (keysymFor_silent .shift false _ _).1]
      rfl
    constructor
    · calc (Board.idle caps).typed _
          = held.text (.key false 0x2a true) ++ held.typed
              ([.key false code true, .key false code false] ++ [.key false 0x2a false]) := by
            rw [← hdown]
            rfl
        _ = [ch] := by
            rw [hsilent, Board.typed_append, htyped, htext, hrun]
            rfl
    · calc (Board.idle caps).run _
          = (held.run [.key false code true, .key false code false]).after
              (.key false 0x2a false) := by
            rw [← hdown]
            rfl
        _ = .idle caps := by rw [hrun, hup]

theorem typing_typed (caps : Bool) {text : List UInt8} (h : ∀ ch ∈ text, Typeable ch) :
    (Board.idle caps).typed (typing caps text) = text := by
  induction text with
  | nil => rfl
  | cons ch text ih =>
    obtain ⟨hch, hrest⟩ := List.forall_mem_cons.mp h
    obtain ⟨htyped, hrun⟩ := stroke_typed caps hch
    rw [typing, List.flatMap_cons, Board.typed_append, htyped, hrun]
    exact congrArg (ch :: ·) (ih hrest)

/-- A transition of a mapped key, which is no modifier but the left shift key. -/
def Stroked (scan : Scan) : Prop :=
  ∃ code pressed, scan = .key false code pressed ∧ scanKey false code ≠ .reserved ∧
    ∀ m right, scanKey false code = Modifier.key m right → m = .shift ∧ right = false

theorem stroked_shift (pressed : Bool) : Stroked (.key false 0x2a pressed) :=
  ⟨0x2a, pressed, rfl, by decide, fun _ _ heq => key_injective heq.symm⟩

theorem stroked_plain {code : Fin 128} (hmapped : scanKey false code ≠ .reserved)
    (hkey : ∀ m right, scanKey false code ≠ Modifier.key m right) (pressed : Bool) :
    Stroked (.key false code pressed) :=
  ⟨code, pressed, rfl, hmapped, fun m right heq => absurd heq (hkey m right)⟩

theorem stroked_caps (pressed : Bool) : Stroked (.key false 0x3a pressed) := by
  apply stroked_plain (by decide)
  intro m right heq
  cases m <;> cases right <;> cases heq

theorem stroked_typing {caps : Bool} {text : List UInt8} (h : ∀ ch ∈ text, Typeable ch) :
    ∀ scan ∈ typing caps text, Stroked scan := by
  intro scan hscan
  obtain ⟨ch, hch, hscan⟩ := List.mem_flatMap.mp hscan
  obtain ⟨code, shift, htext, hstroke⟩ := stroke_cases caps (h ch hch)
  obtain ⟨hmapped, -, hkey⟩ := sending_key htext
  have hplain := stroked_plain hmapped hkey
  rw [hstroke] at hscan
  split at hscan
  · simp only [List.mem_cons, List.not_mem_nil, or_false] at hscan
    rcases hscan with rfl | rfl | rfl | rfl
    · exact stroked_shift true
    · exact hplain true
    · exact hplain false
    · exact stroked_shift false
  · simp only [List.mem_cons, List.not_mem_nil, or_false] at hscan
    rcases hscan with rfl | rfl
    · exact hplain true
    · exact hplain false

theorem Stroked.valid (h : Stroked scan) : scan.Valid := by
  obtain ⟨code, pressed, rfl, hmapped, -⟩ := h
  exact hmapped

/-- Keys that are not touched stay up. -/
theorem held_rightshift (h : ∀ scan ∈ scans, Stroked scan) :
    held scans (Modifier.key .shift true) = false := by
  induction scans using List.reverseRecOn with
  | nil => rfl
  | append_singleton scans scan ih =>
    obtain ⟨code, pressed, rfl, -, hkey⟩ := h scan (by simp)
    rw [held_append, ih fun other hm => h other (by simp [hm])]
    simp only [track, Scan.transition]
    split
    next heq => cases (hkey .shift true heq).2
    next => rfl

theorem releasesAlone_of_stroked (h : ∀ scan ∈ scans, Stroked scan) : ReleasesAlone scans := by
  intro before scan after heq m right ht
  subst heq
  obtain ⟨code, pressed, rfl, -, hkey⟩ := h scan (by simp)
  obtain ⟨hcode, -⟩ := Prod.mk.inj (Option.some.inj ht)
  obtain ⟨rfl, rfl⟩ := hkey m right hcode
  exact held_rightshift fun other hm => h other (by simp [hm])

/-- Turning the caps lock on, or not. -/
def lockCaps (caps : Bool) : List Scan :=
  if caps then [.key false 0x3a true, .key false 0x3a false] else []

theorem lockCaps_typed (caps : Bool) : Board.start.typed (lockCaps caps) = [] ∧
    Board.start.run (lockCaps caps) = .idle caps := by
  cases caps with
  | false => exact ⟨rfl, rfl⟩
  | true =>
    refine ⟨rfl, ?_⟩
    have hdown : (Board.start.run (lockCaps true)).down = (Board.idle true).down := by
      funext key
      show track key (track key false (.key false 0x3a true)) (.key false 0x3a false) = false
      simp only [track, Scan.transition]
      split_ifs <;> rfl
    exact congrArg (Board.mk · true) hdown

end

/-- However the bytes of a keyboard are split over the runs of the worker, the driver and the keymap
send the text that was typed: each press sends what is on its key, in the shift that the keys down
and the caps lock give. Every byte is a character of ASCII other than the null character. -/
theorem keyboard_text_decoded {scans : List Scan} {batches : List (List UInt8)}
    (hv : ∀ scan ∈ scans, scan.Valid) (halone : ReleasesAlone scans)
    (hb : batches.flatten = encode scans) :
    (batches.foldl ps2KeyboardWork .initial).reports.flatMap reportText =
        Board.start.typed scans ∧
      ∀ ch ∈ Board.start.typed scans, ch ≠ 0 ∧ ch < 0x80 := by
  rw [foldl_work, hb]
  exact ⟨reports_text hv halone, Board.typed_ascii _ _⟩

/-- Shift and `a`, then `b` before `a` is released. -/
theorem keyboard_text_decoded_rollover :
    ([[0x2a, 0x1e], [0xaa, 0x30], [0x9e, 0xb0]].foldl ps2KeyboardWork .initial).reports.flatMap
      reportText = [0x41, 0x62] := by
  let scans : List Scan := [.key false 0x2a true, .key false 0x1e true, .key false 0x2a false,
    .key false 0x30 true, .key false 0x1e false, .key false 0x30 false]
  have ha (m : Modifier) (right : Bool) : scanKey false 0x1e ≠ m.key right := by
    intro heq
    cases m <;> cases right <;> cases heq
  have hb (m : Modifier) (right : Bool) : scanKey false 0x30 ≠ m.key right := by
    intro heq
    cases m <;> cases right <;> cases heq
  have hstroked : ∀ scan ∈ scans, Stroked scan := by
    intro scan hscan
    simp only [scans, List.mem_cons, List.not_mem_nil, or_false] at hscan
    rcases hscan with rfl | rfl | rfl | rfl | rfl | rfl
    · exact stroked_shift true
    · exact stroked_plain (by decide) ha true
    · exact stroked_shift false
    · exact stroked_plain (by decide) hb true
    · exact stroked_plain (by decide) ha false
    · exact stroked_plain (by decide) hb false
  have hbatches : [[0x2a, 0x1e], [0xaa, 0x30], [0x9e, 0xb0]].flatten = encode scans := by decide
  rw [(keyboard_text_decoded (fun scan hscan => (hstroked scan hscan).valid)
    (releasesAlone_of_stroked hstroked) hbatches).1]
  decide

/-- Every text of typeable characters is sent by some strokes, with the caps lock on or off. -/
theorem typing_round_trip {text : List UInt8} (h : ∀ ch ∈ text, Typeable ch) (caps : Bool)
    {batches : List (List UInt8)}
    (hb : batches.flatten = encode (lockCaps caps ++ typing caps text)) :
    (batches.foldl ps2KeyboardWork .initial).reports.flatMap reportText = text := by
  have hstroked : ∀ scan ∈ lockCaps caps ++ typing caps text, Stroked scan := by
    intro scan hscan
    rcases List.mem_append.mp hscan with hscan | hscan
    · unfold lockCaps at hscan
      split at hscan
      · simp only [List.mem_cons, List.not_mem_nil, or_false] at hscan
        rcases hscan with rfl | rfl
        · exact stroked_caps true
        · exact stroked_caps false
      · cases hscan
    · exact stroked_typing h scan hscan
  obtain ⟨hsilent, hidle⟩ := lockCaps_typed caps
  rw [foldl_work, hb, ← ps2KeyboardWork,
    reports_text (fun scan hscan => (hstroked scan hscan).valid)
      (releasesAlone_of_stroked hstroked),
    Board.typed_append, hsilent, hidle, typing_typed caps h]
  rfl

theorem typing_round_trip_hi : (∀ ch ∈ ([0x48, 0x69, newline] : List UInt8), Typeable ch) ∧
    ([encode (lockCaps true ++ typing true [0x48, 0x69, newline])].foldl ps2KeyboardWork
      .initial).reports.flatMap reportText = [0x48, 0x69, newline] :=
  have htypeable : ∀ ch ∈ ([0x48, 0x69, newline] : List UInt8), Typeable ch :=
    typeable_of_all (by decide)
  ⟨htypeable, typing_round_trip htypeable true (by simp)⟩

end Tianole.Tty
