import Tianole.Errno
import Tianole.Lib.RingBuffer
import Tianole.Lib.Word
import Tianole.Sched.Channel

/-! The line discipline of `drivers/tty/tty.c`: characters are collected in the edit line, a
newline submits it to a ring of lines, and readers take lines out, blocking or not. What is echoed
is in `Tty.Echo`. -/
namespace Tianole.Tty
open Word Sched

def ttyLineLength : ℕ := 128
def ttyLineQueueSize : ℕ := 8

/-- A slot of the ring: `lines[i]` and `lengths[i]`. -/
structure TtyLine where
  text : ℕ → UInt8
  length : ℕ

/-- `tty_lines` without its wait queue, `edit_line`, `edit_length` and `tty_ready`. -/
structure Terminal where
  lines : RingBuffer TtyLine
  dropped : ℕ
  editLine : ℕ → UInt8
  editLength : ℕ
  ready : Bool

def ttyHasLine (t : Terminal) : Bool := t.lines.count != 0

/-- The conversion `(int)` of a length. -/
def toInt (n : ℕ) : ℤ := (n : ℤ).bmod (2 ^ 32)

/-- Callers have checked the size of their buffer. -/
abbrev BufferSize := { size : ℕ // 0 < size }

/-- The return value, and what is written into the buffer of the reader. -/
def ttyPopLineLocked (t : Terminal) (size : BufferSize) : Terminal × (ℤ × List UInt8) :=
  if t.lines.count = 0 then (t, -Errno.again, [])
  else
    let line := t.lines.front
    let length := if line.length + 1 > size.val then size.val - 1 else line.length
    ({ t with lines := t.lines.drop ttyLineQueueSize },
      toInt length, (List.range length).map line.text ++ [0])

/-- The edit line as it is copied into a slot; the rest of the slot keeps what it held. -/
def Terminal.submitted (t : Terminal) : TtyLine where
  text i := if i < t.editLength then t.editLine i
    else if i = t.editLength then 0 else (t.lines.slots t.lines.tail).text i
  length := t.editLength

/-- The critical section of `tty_submit_edit_line`, and whether it wakes a waiter. -/
def ttySubmitLocked (t : Terminal) : Terminal × Bool :=
  if t.lines.count = ttyLineQueueSize then ({ t with dropped := wrap64 (t.dropped + 1) }, false)
  else ({ t with lines := t.lines.push ttyLineQueueSize t.submitted }, true)

/-- On both paths the edit line is emptied after the critical section. -/
def ttyClearEditLine (t : Terminal) : Terminal := { t with editLength := 0 }

def ttySubmitEditLine (t : Terminal) : Terminal × Bool :=
  (ttyClearEditLine (ttySubmitLocked t).1, (ttySubmitLocked t).2)

def ttyHandleBackspace (t : Terminal) : Terminal :=
  if t.editLength = 0 then t else { t with editLength := t.editLength - 1 }

/-- A full edit line takes no more characters. -/
def ttyAppend (t : Terminal) (ch : UInt8) : Terminal :=
  if t.editLength + 1 ≥ ttyLineLength then t
  else { t with editLine := Function.update t.editLine t.editLength ch,
                editLength := t.editLength + 1 }

def ttyInit (t : Terminal) : Terminal :=
  if t.ready then t
  else { t with lines := .empty t.lines.slots, dropped := 0, editLength := 0, ready := true }

def backspace : UInt8 := 8
def newline : UInt8 := 10

def ttyReceiveChar (t : Terminal) (ch : UInt8) : Terminal × Bool :=
  let t := if t.ready = false then ttyInit t else t
  if ch = backspace then (ttyHandleBackspace t, false)
  else if ch = newline then ttySubmitEditLine t
  else (ttyAppend t ch, false)

/-- What a writer does to the terminal between two points at which others may run. -/
inductive TtyWrite where
  | backspace
  | append (ch : UInt8)
  | submit
  | clear
  deriving DecidableEq, Repr

def Terminal.write (t : Terminal) : TtyWrite → Terminal × Bool
  | .backspace => (ttyHandleBackspace t, false)
  | .append ch => (ttyAppend t ch, false)
  | .submit => ttySubmitLocked t
  | .clear => (ttyClearEditLine t, false)

/-- The parts of `tty_receive_char` for one character. -/
def writesOf (ch : UInt8) : List TtyWrite :=
  if ch = backspace then [.backspace]
  else if ch = newline then [.submit, .clear]
  else [.append ch]

/-- Run without interruption, the parts are the function. -/
theorem ttyReceiveChar_writes (t : Terminal) (ch : UInt8) (h : t.ready = true) :
    (ttyReceiveChar t ch).1 = (writesOf ch).foldl (fun t w => (t.write w).1) t := by
  simp only [ttyReceiveChar, h, Bool.true_eq_false, ↓reduceIte, writesOf]
  split_ifs <;> rfl

/-- `tty_read_line`, `tty_try_read_line` and `tty_receive_char` on the wait queue `wait`. -/
def ttyChannel (wait : QueuePtr) : Channel Terminal TtyWrite BufferSize (ℤ × List UInt8) where
  queue := wait
  hasItem := ttyHasLine
  allows _ _ := True
  put := Terminal.write
  take := ttyPopLineLocked

instance (wait : QueuePtr) (t : Terminal) (w : TtyWrite) :
    Decidable ((ttyChannel wait).allows t w) := isTrue trivial

/-- The state in which `tty_init` leaves the zeroed terminal. -/
def Terminal.Started (t : Terminal) : Prop := ∃ t₀ : Terminal, t₀.ready = false ∧ t = ttyInit t₀

/-- The ring is in order and holds `n` lines, all of them short enough for their slots. -/
structure Terminal.Holds (t : Terminal) (n : ℕ) : Prop where
  valid : t.lines.Valid ttyLineQueueSize
  count : t.lines.count = n
  edit : t.editLength < ttyLineLength
  short : ∀ line ∈ t.lines.contents ttyLineQueueSize, line.length < ttyLineLength

section
variable {t : Terminal} {n : ℕ}

theorem toInt_eq (h : n < ttyLineLength) : toInt n = n := by
  have hbound : n < 128 := h
  refine Int.bmod_eq_of_le ?_ ?_ <;> omega

theorem Terminal.Started.holds (h : t.Started) : t.Holds 0 := by
  obtain ⟨t₀, ht₀, rfl⟩ := h
  rw [ttyInit, ht₀]
  exact ⟨RingBuffer.valid_empty _ (by decide), rfl, by simp [ttyLineLength], by simp⟩

theorem Terminal.Holds.submit (h : t.Holds n) :
    (ttySubmitLocked t).1.Holds (if (ttySubmitLocked t).2 then n + 1 else n) := by
  by_cases hfull : t.lines.count = ttyLineQueueSize
  · rw [ttySubmitLocked, if_pos hfull]
    exact ⟨h.valid, h.count, h.edit, h.short⟩
  · have hroom : t.lines.count < ttyLineQueueSize := Nat.lt_of_le_of_ne h.valid.count hfull
    rw [ttySubmitLocked, if_neg hfull]
    refine ⟨h.valid.push hroom, congrArg (· + 1) h.count, h.edit, fun line hl => ?_⟩
    rw [h.valid.contents_push hroom, List.mem_append, List.mem_singleton] at hl
    rcases hl with hl | rfl
    · exact h.short line hl
    · exact h.edit

theorem Terminal.Holds.write (h : t.Holds n) (w : TtyWrite) :
    (t.write w).1.Holds (if (t.write w).2 then n + 1 else n) := by
  cases w with
  | backspace =>
    simp only [Terminal.write, ttyHandleBackspace]
    split
    next => exact h
    next => exact ⟨h.valid, h.count, Nat.lt_of_le_of_lt (Nat.sub_le _ _) h.edit, h.short⟩
  | append ch =>
    simp only [Terminal.write, ttyAppend]
    split
    next => exact h
    next hroom => exact ⟨h.valid, h.count, Nat.not_le.mp hroom, h.short⟩
  | submit => exact h.submit
  | clear => exact ⟨h.valid, h.count, by simp [Terminal.write, ttyClearEditLine, ttyLineLength], h.short⟩

/-- A reader of a line gets its length, cut to the size of the buffer. -/
theorem Terminal.Holds.pop (h : t.Holds (n + 1)) (size : BufferSize) :
    (ttyPopLineLocked t size).1.Holds n ∧
      (ttyPopLineLocked t size).2.1 = min t.lines.front.length (size.val - 1) := by
  have hpos : 0 < t.lines.count := by simp [h.count]
  have hcontents := h.valid.contents_drop hpos
  have hfront : t.lines.front.length < ttyLineLength := h.short _ (by simp [hcontents])
  rw [ttyPopLineLocked, if_neg (Nat.pos_iff_ne_zero.mp hpos)]
  refine ⟨⟨h.valid.drop hpos, by simp [RingBuffer.drop, h.count], h.edit, fun line hl => ?_⟩, ?_⟩
  · exact h.short line (by simp [hcontents, hl])
  · have hsize := size.property
    simp only
    split
    next hcut =>
      rw [toInt_eq (by omega)]
      omega
    next hfits =>
      rw [toInt_eq hfront]
      omega

theorem ttyChannel_lawful (wait : QueuePtr) :
    (ttyChannel wait).Lawful Terminal.Holds fun r => 0 ≤ r.1 where
  hasItem h := by simp [ttyChannel, ttyHasLine, h.count, Nat.pos_iff_ne_zero]
  put h w _ := h.write w
  take_zero h size := by
    simp only [ttyChannel, ttyPopLineLocked, h.count, ↓reduceIte]
    exact h
  take_succ h size := by
    obtain ⟨hholds, hret⟩ := h.pop size
    exact ⟨hholds, by simp only [ttyChannel, hret]; omega⟩

end

end Tianole.Tty
