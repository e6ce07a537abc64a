import Mathlib.Data.List.Basic
import Mathlib.Data.Nat.Notation

/-! The set-1 scancode decoder of `drivers/input/keyboard/ps2.c`. -/
namespace Tianole.Input

/-- The key codes that the keyboard driver can produce. -/
inductive Key where
  | reserved | esc | key1 | key2 | key3 | key4 | key5 | key6 | key7 | key8 | key9 | key0 | minus
  | equal | backspace | tab | q | w | e | r | t | y | u | i | o | p | leftbrace | rightbrace
  | enter | leftctrl | a | s | d | f | g | h | j | k | l | semicolon | apostrophe | grave
  | leftshift | backslash | z | x | c | v | b | n | m | comma | dot | slash | rightshift
  | kpasterisk | leftalt | space | capslock | f1 | f2 | f3 | f4 | f5 | f6 | f7 | f8 | f9 | f10
  | numlock | scrolllock | kp7 | kp8 | kp9 | kpminus | kp4 | kp5 | kp6 | kpplus | kp1 | kp2 | kp3
  | kp0 | kpdot | f11 | f12 | kpenter | rightctrl | kpslash | rightalt | home | up | pageup
  | left | right | end | down | pagedown | insert | delete
  deriving DecidableEq, Repr

def ps2Set1Keycode : List (ℕ × Key) :=
  [(0x01, .esc), (0x02, .key1), (0x03, .key2), (0x04, .key3), (0x05, .key4), (0x06, .key5),
   (0x07, .key6), (0x08, .key7), (0x09, .key8), (0x0a, .key9), (0x0b, .key0), (0x0c, .minus),
   (0x0d, .equal), (0x0e, .backspace), (0x0f, .tab), (0x10, .q), (0x11, .w), (0x12, .e),
   (0x13, .r), (0x14, .t), (0x15, .y), (0x16, .u), (0x17, .i), (0x18, .o), (0x19, .p),
   (0x1a, .leftbrace), (0x1b, .rightbrace), (0x1c, .enter), (0x1d, .leftctrl), (0x1e, .a),
   (0x1f, .s), (0x20, .d), (0x21, .f), (0x22, .g), (0x23, .h), (0x24, .j), (0x25, .k),
   (0x26, .l), (0x27, .semicolon), (0x28, .apostrophe), (0x29, .grave), (0x2a, .leftshift),
   (0x2b, .backslash), (0x2c, .z), (0x2d, .x), (0x2e, .c), (0x2f, .v), (0x30, .b), (0x31, .n),
   (0x32, .m), (0x33, .comma), (0x34, .dot), (0x35, .slash), (0x36, .rightshift),
   (0x37, .kpasterisk), (0x38, .leftalt), (0x39, .space), (0x3a, .capslock), (0x3b, .f1),
   (0x3c, .f2), (0x3d, .f3), (0x3e, .f4), (0x3f, .f5), (0x40, .f6), (0x41, .f7), (0x42, .f8),
   (0x43, .f9), (0x44, .f10), (0x45, .numlock), (0x46, .scrolllock), (0x47, .kp7), (0x48, .kp8),
   (0x49, .kp9), (0x4a, .kpminus), (0x4b, .kp4), (0x4c, .kp5), (0x4d, .kp6), (0x4e, .kpplus),
   (0x4f, .kp1), (0x50, .kp2), (0x51, .kp3), (0x52, .kp0), (0x53, .kpdot), (0x57, .f11),
   (0x58, .f12)]

def ps2Set1E0Keycode : List (ℕ × Key) :=
  [(0x1c, .kpenter), (0x1d, .rightctrl), (0x35, .kpslash), (0x38, .rightalt), (0x47, .home),
   (0x48, .up), (0x49, .pageup), (0x4b, .left), (0x4d, .right), (0x4f, .end), (0x50, .down),
   (0x51, .pagedown), (0x52, .insert), (0x53, .delete)]

def ps2ScancodeRelease : UInt8 := 0x80
def ps2ScancodeExtended : UInt8 := 0xe0
def ps2ScancodePause : UInt8 := 0xe1
def ps2ScancodeMask : UInt8 := 0x7f

/-- Entries that the tables leave out are `INPUT_KEY_RESERVED`. -/
def ps2KeyboardKeycodeFromSet1 (code : UInt8) (extended : Bool) : Key :=
  let code := (code &&& ps2ScancodeMask).toNat
  ((if extended then ps2Set1E0Keycode else ps2Set1Keycode).lookup code).getD .reserved

def inputModifierShift : BitVec 32 := 1#32 <<< 0
def inputModifierCtrl : BitVec 32 := 1#32 <<< 1
def inputModifierAlt : BitVec 32 := 1#32 <<< 2
def inputModifierCapslock : BitVec 32 := 1#32 <<< 3
def inputModifierNumlock : BitVec 32 := 1#32 <<< 4
def inputModifierScrolllock : BitVec 32 := 1#32 <<< 5

/-- The end of `ps2_update_modifier`, for a mask that is not zero. -/
def holdModifier (modifiers mask : BitVec 32) (pressed : Bool) : BitVec 32 :=
  if pressed then modifiers ||| mask else modifiers &&& ~~~mask

def ps2UpdateModifier (modifiers : BitVec 32) (key : Key) (pressed : Bool) : BitVec 32 :=
  if key = .leftshift ∨ key = .rightshift then holdModifier modifiers inputModifierShift pressed
  else if key = .leftctrl ∨ key = .rightctrl then holdModifier modifiers inputModifierCtrl pressed
  else if key = .leftalt ∨ key = .rightalt then holdModifier modifiers inputModifierAlt pressed
  else if pressed ∧ key = .capslock then modifiers ^^^ inputModifierCapslock
  else if pressed ∧ key = .numlock then modifiers ^^^ inputModifierNumlock
  else if pressed ∧ key = .scrolllock then modifiers ^^^ inputModifierScrolllock
  else modifiers

/-- One call of `input_report_key` by the driver. -/
structure Report where
  key : Key
  pressed : Bool
  modifiers : BitVec 32
  deriving DecidableEq, Repr

/-- The decoding state of `struct ps2_keyboard`, with the calls of `input_report_key` made so
far, oldest first. -/
structure Decoder where
  modifiers : BitVec 32
  extendedPending : Bool
  pauseBytes : ℕ
  reports : List Report
  deriving DecidableEq, Repr

/-- After `ps2_keyboard_init`. -/
def Decoder.initial : Decoder := ⟨0, false, 0, []⟩

/-- One round of the loop in `ps2_keyboard_work`. -/
def decodeScancode (d : Decoder) (scancode : UInt8) : Decoder :=
  let code := scancode &&& ps2ScancodeMask
  let pressed := decide (scancode &&& ps2ScancodeRelease = 0)
  if d.pauseBytes ≠ 0 then { d with pauseBytes := d.pauseBytes - 1 }
  else if scancode = ps2ScancodePause then { d with pauseBytes := 5 }
  else if scancode = ps2ScancodeExtended then { d with extendedPending := true }
  else
    let key := ps2KeyboardKeycodeFromSet1 code d.extendedPending
    if key = .reserved then { d with extendedPending := false }
    else
      let modifiers := ps2UpdateModifier d.modifiers key pressed
      { d with extendedPending := false, modifiers := modifiers,
               reports := d.reports ++ [⟨key, pressed, modifiers⟩] }

/-- `ps2_keyboard_work`, given the bytes that `ps2_raw_pop` yields before it returns 0. -/
def ps2KeyboardWork (d : Decoder) (raw : List UInt8) : Decoder := raw.foldl decodeScancode d

/-! ### What a keyboard sends -/

/-- The complete byte sequences of set 1: a key going down or up, the Pause key, and codes
that neither table has. -/
inductive Scan where
  | key (extended : Bool) (code : Fin 128) (pressed : Bool)
  | pause
  | unmapped (extended : Bool) (byte : UInt8)
  deriving DecidableEq, Repr

/-- Set 1 sends a make code, and for a release the same with the top bit set. -/
def scancode (code : Fin 128) (pressed : Bool) : UInt8 :=
  if pressed then UInt8.ofNat code else UInt8.ofNat code ||| ps2ScancodeRelease

def scanKey (extended : Bool) (code : Fin 128) : Key :=
  ps2KeyboardKeycodeFromSet1 (UInt8.ofNat code) extended

def withPrefix (extended : Bool) (byte : UInt8) : List UInt8 :=
  if extended then [ps2ScancodeExtended, byte] else [byte]

namespace Scan

def Valid : Scan → Prop
  | key extended code _ => scanKey extended code ≠ .reserved
  | pause => True
  | unmapped extended byte => ps2KeyboardKeycodeFromSet1 byte extended = .reserved ∧
      byte ≠ ps2ScancodeExtended ∧ byte ≠ ps2ScancodePause

instance (scan : Scan) : Decidable scan.Valid := by
  unfold Valid; split <;> infer_instance

def bytes : Scan → List UInt8
  | key extended code pressed => withPrefix extended (scancode code pressed)
  | pause => [0xe1, 0x1d, 0x45, 0xe1, 0x9d, 0xc5]
  | unmapped extended byte => withPrefix extended byte

/-- The key transition that is meant, if any. -/
def transition : Scan → Option (Key × Bool)
  | key extended code pressed => some (scanKey extended code, pressed)
  | _ => none

end Scan

/-- The bytes of a list of sequences. -/
def encode (scans : List Scan) : List UInt8 := scans.flatMap Scan.bytes

/-- What one complete sequence does to the decoder. -/
def Decoder.accept (d : Decoder) (scan : Scan) : Decoder :=
  match scan.transition with
  | some (key, pressed) =>
      let modifiers := ps2UpdateModifier d.modifiers key pressed
      { d with modifiers := modifiers, reports := d.reports ++ [⟨key, pressed, modifiers⟩] }
  | none => d

/-- Between two sequences. -/
structure Decoder.Resting (d : Decoder) : Prop where
  extended : d.extendedPending = false
  pause : d.pauseBytes = 0

section
variable {d : Decoder} {scan : Scan}

theorem Decoder.Resting.accept (h : d.Resting) (scan : Scan) : (d.accept scan).Resting := by
  cases scan <;> exact ⟨h.extended, h.pause⟩

theorem scancode_ne_prefix : ∀ extended code, scanKey extended code ≠ .reserved → ∀ pressed,
    scancode code pressed ≠ ps2ScancodePause ∧ scancode code pressed ≠ ps2ScancodeExtended := by
  decide +kernel

theorem scancode_mask : ∀ code pressed,
    scancode code pressed &&& ps2ScancodeMask = UInt8.ofNat code.val := by decide +kernel

theorem scancode_release : ∀ code pressed,
    decide (scancode code pressed &&& ps2ScancodeRelease = 0) = pressed := by decide +kernel

theorem keycode_mask (byte : UInt8) (extended : Bool) :
    ps2KeyboardKeycodeFromSet1 (byte &&& ps2ScancodeMask) extended =
      ps2KeyboardKeycodeFromSet1 byte extended := by
  have hmask : byte &&& ps2ScancodeMask &&& ps2ScancodeMask = byte &&& ps2ScancodeMask := by
    rw [UInt8.and_assoc, UInt8.and_self]
  rw [ps2KeyboardKeycodeFromSet1, hmask, ps2KeyboardKeycodeFromSet1]

/-- The prefix byte only selects the table. -/
theorem decode_withPrefix (h : d.Resting) (extended : Bool) (byte : UInt8) :
    (withPrefix extended byte).foldl decodeScancode d =
      decodeScancode { d with extendedPending := extended } byte := by
  cases extended with
  | false =>
    have hd : d = { d with extendedPending := false } := by rw [← h.extended]
    rw [← hd]
    rfl
  | true =>
    have hext : decodeScancode d ps2ScancodeExtended = { d with extendedPending := true } := by
      simp [decodeScancode, h.pause, ps2ScancodeExtended, ps2ScancodePause]
    simp only [withPrefix, if_true, List.foldl_cons, List.foldl_nil, hext]

/-- Every complete sequence is decoded to what it means. -/
theorem decode_scan (h : d.Resting) (hv : scan.Valid) :
    scan.bytes.foldl decodeScancode d = d.accept scan := by
  have hprefix := decode_withPrefix h
  obtain ⟨modifiers, pending, left, reports⟩ := d
  obtain rfl : pending = false := h.extended
  obtain rfl : left = 0 := h.pause
  cases scan with
  | key extended code pressed =>
    obtain ⟨hp, he⟩ := scancode_ne_prefix extended code hv pressed
    have hkey : ps2KeyboardKeycodeFromSet1 (UInt8.ofNat code) extended ≠ .reserved := hv
    rw [Scan.bytes, hprefix]
    simp only [decodeScancode, ne_eq, not_true_eq_false, if_false, hp, he, scancode_mask,
      scancode_release, hkey, Decoder.accept, Scan.transition, scanKey]
  | pause => rfl
  | unmapped extended byte =>
    obtain ⟨hkey, he, hp⟩ := hv
    rw [Scan.bytes, hprefix]
    simp only [decodeScancode, ne_eq, not_true_eq_false, if_false, hp, he, keycode_mask, hkey,
      if_true, Decoder.accept, Scan.transition]

theorem decode_encode {scans : List Scan} (h : d.Resting) (hv : ∀ scan ∈ scans, scan.Valid) :
    (encode scans).foldl decodeScancode d = scans.foldl Decoder.accept d ∧
      (scans.foldl Decoder.accept d).Resting := by
  induction scans generalizing d with
  | nil => exact ⟨rfl, h⟩
  | cons scan scans ih =>
    rw [encode, List.flatMap_cons, List.foldl_append, decode_scan h (hv scan (by simp))]
    exact ih (h.accept scan) fun other ho => hv other (by simp [ho])

theorem accept_reports (scans : List Scan) :
    ((scans.foldl Decoder.accept d).reports.map fun r => (r.key, r.pressed)) =
      (d.reports.map fun r => (r.key, r.pressed)) ++ scans.filterMap Scan.transition := by
  induction scans generalizing d with
  | nil => simp
  | cons scan scans ih =>
    rw [List.foldl_cons, ih]
    cases scan with
    | key extended code pressed => simp [Decoder.accept, Scan.transition]
    | pause | unmapped _ _ => rfl

theorem foldl_work (batches : List (List UInt8)) :
    batches.foldl ps2KeyboardWork d = batches.flatten.foldl decodeScancode d := by
  induction batches generalizing d with
  | nil => rfl
  | cons raw batches ih => rw [List.foldl_cons, ih, List.flatten_cons, List.foldl_append]; rfl

end

theorem resting_initial : Decoder.initial.Resting := ⟨rfl, rfl⟩

/-- However the bytes of a list of complete sequences are split over the runs of the worker,
the driver reports exactly the key transitions that were sent, and comes to rest. -/
theorem set1_decoder_inverts {scans : List Scan} {batches : List (List UInt8)}
    (hv : ∀ scan ∈ scans, scan.Valid) (hb : batches.flatten = encode scans) :
    ((batches.foldl ps2KeyboardWork .initial).reports.map fun r => (r.key, r.pressed)) =
        scans.filterMap Scan.transition ∧
      (batches.foldl ps2KeyboardWork .initial).extendedPending = false ∧
      (batches.foldl ps2KeyboardWork .initial).pauseBytes = 0 := by
  obtain ⟨hdecode, hrest⟩ := decode_encode resting_initial hv
  rw [foldl_work, hb, hdecode]
  refine ⟨?_, hrest.extended, hrest.pause⟩
  rw [accept_reports]
  rfl

/-- Right control down, the Pause key, a fake shift, right control up; cut in the middle of
two sequences. -/
theorem set1_decoder_inverts_split :
    ((([[0xe0], [0x1d, 0xe1, 0x1d], [0x45, 0xe1, 0x9d, 0xc5, 0xe0, 0x2a, 0xe0, 0x9d]] :
      List (List UInt8)).foldl ps2KeyboardWork .initial).reports.map fun r => (r.key, r.pressed)) =
        [(.rightctrl, true), (.rightctrl, false)] :=
  (@set1_decoder_inverts [.key true 0x1d true, .pause, .unmapped true 0x2a,
    .key true 0x1d false] _ (by decide) (by decide)).1

end Tianole.Input
