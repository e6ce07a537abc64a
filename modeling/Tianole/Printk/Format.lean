import Mathlib.Data.Nat.Digits.Defs
import Mathlib.Logic.Function.Basic
import Tianole.Lib.Runs
import Tianole.Lib.Word

/-! The log output of `kernel/printk/printk.c`: the emitting functions and the scanner of
`vprintk_format`, with the bytes of the format string that it reads. -/
namespace Tianole.Printk
open Word

def printkRingSize : ℕ := 4096

/-- `struct printk_ring`. -/
structure PrintkRing where
  buffer : ℕ → UInt8
  head : ℕ
  count : ℕ
  dropped : ℕ

/-- The ring, the bytes that went to the consoles and the variable `count` of `vprintk_format`.
Recorded along: the characters that `printk_emit_char` was called with. -/
structure Output where
  ring : PrintkRing
  ready : Bool
  console : List UInt8
  count : ℤ
  emitted : List UInt8

/-- Ways in which a call does not return: a loop that does not end within the given number of
rounds, or a store behind the array of digits. -/
inductive Stop where
  | hang
  | overflow
  deriving DecidableEq, Repr

/-! ### Emitting -/

def printkRingPutc (r : PrintkRing) (ch : UInt8) : PrintkRing where
  buffer := Function.update r.buffer r.head ch
  head := (r.head + 1) % printkRingSize
  count := if r.count < printkRingSize then r.count + 1 else r.count
  dropped := if r.count < printkRingSize then r.dropped else wrap64 (r.dropped + 1)

def printkConsolePutc (console : List UInt8) (ch : UInt8) : List UInt8 :=
  console ++ if ch = 0x0a then [0x0d, ch] else [ch]

/-- The counter is an `int`. -/
def printkEmitChar (o : Output) (ch : UInt8) : Output where
  ring := if o.ready then printkRingPutc o.ring ch else o.ring
  ready := o.ready
  console := printkConsolePutc o.console ch
  count := (o.count + 1).bmod (2 ^ 32)
  emitted := o.emitted ++ [ch]

/-- A pointer to a terminated string, or null. -/
abbrev StringArg := Option { text : List UInt8 // 0 ∉ text }

/-- The bytes of a literal. -/
def ascii (text : String) : List UInt8 := text.toList.map Char.toUInt8

def printkEmitString (o : Output) (text : StringArg) : Output :=
  match text with
  | none => (ascii "(null)").foldl printkEmitChar o
  | some text => text.val.foldl printkEmitChar o

def alphabet (i : ℕ) : UInt8 := (ascii "0123456789abcdef").getD i 0

/-- The digits of a value that is not zero, the last one first, with `n` places left. -/
def digitLoop (base : ℕ) : ℕ → ℕ → Except Stop (List UInt8)
  | 0, value => if value = 0 then .ok [] else .error .overflow
  | n + 1, value =>
      if value = 0 then .ok []
      else (digitLoop base n (value / base)).map (alphabet (value % base) :: ·)

def padLoop (index : ℕ) (pad : UInt8) : ℕ → Output → Output
  | 0, o => o
  | width + 1, o => if index < width + 1 then padLoop index pad width (printkEmitChar o pad) else o

def printkEmitUnsignedWidth (o : Output) (value base width : ℕ) (pad : UInt8) :
    Except Stop Output :=
  (if value = 0 then .ok [0x30] else digitLoop base 32 value).map fun digits =>
    digits.reverse.foldl printkEmitChar (padLoop digits.length pad width o)

def printkEmitUnsigned (o : Output) (value base : ℕ) : Except Stop Output :=
  printkEmitUnsignedWidth o value base 0 0x20

def printkEmitSigned (o : Output) (value : ℤ) : Except Stop Output :=
  if value < 0 then
    printkEmitUnsigned (printkEmitChar o 0x2d) (wrap64 ((-(value + 1)).toNat + 1)) 10
  else printkEmitUnsigned o value.toNat 10

/-! ### The scanner -/

/-- The arguments by position, with the value that `va_arg` gives for each type it is asked for;
`long` stands for `long long` too. -/
structure VaList where
  int : ℕ → Int32
  unsignedInt : ℕ → UInt32
  long : ℕ → Int64
  unsignedLong : ℕ → UInt64
  string : ℕ → StringArg
  pointer : ℕ → UInt64

/-- The cursor in the format string, the offsets that have been read, and how many arguments
have been consumed. -/
structure Scanner where
  pos : ℕ
  reads : List ℕ
  next : ℕ
  out : Output

namespace Scanner

/-- `*fmt` is evaluated. -/
def read (s : Scanner) : Scanner := { s with reads := s.reads ++ [s.pos] }

/-- `fmt++`. -/
def advance (s : Scanner) : Scanner := { s with pos := s.pos + 1 }

def emitChar (s : Scanner) (ch : UInt8) : Scanner := { s with out := printkEmitChar s.out ch }

/-- One argument is consumed. -/
def emitArg (s : Scanner) (out : Except Stop Output) : Except Stop Scanner :=
  out.map fun out => { s with next := s.next + 1, out := out }

end Scanner

def IsDigit (ch : UInt8) : Prop := 0x30 ≤ ch ∧ ch ≤ 0x39

instance (ch : UInt8) : Decidable (IsDigit ch) := inferInstanceAs (Decidable (_ ∧ _))

/-- The next digit of the width, an `unsigned int`. -/
def addDigit (width : ℕ) (ch : UInt8) : ℕ := (width * 10 + (ch.toNat - 0x30)) % 2 ^ 32

/-- `while (p(*fmt)) { acc = f(acc, *fmt); fmt++; }` -/
def scanWhile {α : Type} (p : UInt8 → Prop) [DecidablePred p] (f : α → UInt8 → α)
    (fmt : ℕ → UInt8) : ℕ → Scanner → α → Except Stop (Scanner × α)
  | 0, _, _ => .error .hang
  | n + 1, s, acc =>
      if p (fmt s.pos) then scanWhile p f fmt n s.read.advance (f acc (fmt s.pos))
      else .ok (s.read, acc)

/-- The digits of the width. -/
def widthLoop : (ℕ → UInt8) → ℕ → Scanner → ℕ → Except Stop (Scanner × ℕ) :=
  scanWhile IsDigit addDigit

/-- The `l` modifiers; `long_count` is an `int`. -/
def longLoop : (ℕ → UInt8) → ℕ → Scanner → ℤ → Except Stop (Scanner × ℤ) :=
  scanWhile (· = 'l'.toUInt8) fun longCount _ => (longCount + 1).bmod (2 ^ 32)

/-- What `pad`, `width` and `long_count` have become when the conversion is reached. -/
structure Directive where
  pad : UInt8
  width : ℕ
  longCount : ℤ

/-- The value of a signed argument. -/
def signedArg (args : VaList) (n : ℕ) (longCount : ℤ) : ℤ :=
  if longCount ≥ 2 then (args.long n).toInt
  else if longCount = 1 then (args.long n).toInt
  else (args.int n).toInt

def unsignedArg (args : VaList) (n : ℕ) (longCount : ℤ) : ℕ :=
  if longCount ≥ 2 then (args.unsignedLong n).toNat
  else if longCount = 1 then (args.unsignedLong n).toNat
  else (args.unsignedInt n).toNat

/-- The `switch` over the conversion. -/
def convert (args : VaList) (d : Directive) (spec : UInt8) (s : Scanner) : Except Stop Scanner :=
  if spec = 'c'.toUInt8 then
    s.emitArg (.ok (printkEmitChar s.out (UInt8.ofInt (args.int s.next).toInt)))
  else if spec = 's'.toUInt8 then s.emitArg (.ok (printkEmitString s.out (args.string s.next)))
  else if spec = 'd'.toUInt8 ∨ spec = 'i'.toUInt8 then
    s.emitArg (printkEmitSigned s.out (signedArg args s.next d.longCount))
  else if spec = 'u'.toUInt8 then
    s.emitArg (printkEmitUnsignedWidth s.out (unsignedArg args s.next d.longCount) 10 d.width d.pad)
  else if spec = 'x'.toUInt8 then
    s.emitArg (printkEmitUnsignedWidth s.out (unsignedArg args s.next d.longCount) 16 d.width d.pad)
  else if spec = 'p'.toUInt8 then
    s.emitArg (printkEmitUnsigned ((ascii "0x").foldl printkEmitChar s.out)
      (args.pointer s.next).toNat 16)
  else .ok (if spec ≠ 0 then (s.emitChar '%'.toUInt8).emitChar spec else s.emitChar '%'.toUInt8)

/-- The part of the loop behind a `%` that no second one follows. -/
def directive (fmt : ℕ → UInt8) (args : VaList) (n : ℕ) (s : Scanner) : Except Stop Scanner :=
  let zero := fmt s.pos = 0x30
  let pad := if zero then 0x30 else 0x20
  let s := if zero then s.read.advance else s.read
  (widthLoop fmt n s 0).bind fun w =>
    (longLoop fmt n w.1 0).bind fun l =>
      convert args ⟨pad, w.2, l.2⟩ (fmt l.1.pos) l.1.read.advance

/-- The main loop, with `n` rounds left for it and for the loops inside. -/
def formatLoop (fmt : ℕ → UInt8) (args : VaList) : ℕ → Scanner → Except Stop Scanner
  | 0, _ => .error .hang
  | n + 1, s =>
      if fmt s.pos = 0 then .ok s.read
      else if fmt s.pos ≠ '%'.toUInt8 then
        formatLoop fmt args n ((s.read.emitChar (fmt s.pos)).advance)
      else
        let s := s.read.advance
        if fmt s.pos = '%'.toUInt8 then
          formatLoop fmt args n ((s.read.emitChar (fmt s.pos)).advance)
        else (directive fmt args n s.read).bind (formatLoop fmt args n)

/-- The format string is the bytes from the pointer on, whatever follows its terminator. The result
is the return value beside the state in which the scanner ends. -/
def vprintkFormat (fuel : ℕ) (fmt : Option (ℕ → UInt8)) (args : VaList) (ring : PrintkRing)
    (ready : Bool) (console : List UInt8) : Except Stop (ℤ × Scanner) :=
  let s : Scanner := ⟨0, [], 0, ⟨ring, ready, console, 0, []⟩⟩
  match fmt with
  | none => .ok (0, s)
  | some fmt => (formatLoop fmt args fuel s).map fun s => (s.out.count, s)

end Tianole.Printk
