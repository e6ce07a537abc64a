import Mathlib.Data.List.Basic
import Tianole.Tty.LineQueue

/-! What the line discipline of `drivers/tty/tty.c` delivers, for characters and reads in any
order. -/
namespace Tianole.Tty
open Word

/-! ### Readers -/

/-- A buffer after `bytes` were written at its beginning. -/
def fill (buffer : ℕ → UInt8) (bytes : List UInt8) (i : ℕ) : UInt8 := bytes[i]?.getD (buffer i)

/-- The terminal, the return value and the buffer; a null buffer is `none`. -/
def ttyTryReadLine (t : Terminal) (buffer : Option (ℕ → UInt8)) (size : ℕ) :
    Terminal × ℤ × Option (ℕ → UInt8) :=
  match buffer with
  | none => (t, -Errno.inval, none)
  | some bytes =>
      if h : 0 < size then
        let r := ttyPopLineLocked (if t.ready = false then ttyInit t else t) ⟨size, h⟩
        (r.1, r.2.1, some (fill bytes r.2.2))
      else (t, -Errno.inval, buffer)

def ttyDroppedLines (t : Terminal) : ℕ := if t.ready = false then 0 else t.dropped

inductive TtyCall where
  | receiveChar (ch : UInt8)
  | tryReadLine (buffer : Option (ℕ → UInt8)) (size : ℕ)
  | droppedLines

/-- The terminal after a call. -/
def ttyCall (t : Terminal) : TtyCall → Terminal
  | .receiveChar ch => (ttyReceiveChar t ch).1
  | .tryReadLine buffer size => (ttyTryReadLine t buffer size).1
  | .droppedLines => t

/-! ### The editing semantics -/

/-- A character other than a newline edits the line; a line has room for 127 characters. -/
def editChar (line : List UInt8) (ch : UInt8) : List UInt8 :=
  if ch = backspace then line.dropLast else if line.length < 127 then line ++ [ch] else line

/-- The line being edited, the lines whose newline came while fewer than 8 were queued, how many
of them have been read, and how many newlines came while 8 were queued. -/
structure Discipline where
  edit : List UInt8
  accepted : List (List UInt8)
  delivered : ℕ
  refused : ℕ

namespace Discipline

def start : Discipline := ⟨[], [], 0, 0⟩

/-- The lines that have not been read. -/
def queued (d : Discipline) : List (List UInt8) := d.accepted.drop d.delivered

def call (d : Discipline) : TtyCall → Discipline
  | .receiveChar ch =>
      if ch = newline then
        if d.queued.length < 8 then { d with accepted := d.accepted ++ [d.edit], edit := [] }
        else { d with refused := d.refused + 1, edit := [] }
      else { d with edit := editChar d.edit ch }
  | .tryReadLine (some _) size =>
      if 0 < size ∧ d.queued ≠ [] then { d with delivered := d.delivered + 1 } else d
  | .tryReadLine none _ => d
  | .droppedLines => d

end Discipline

/-- The first characters of a line that a buffer of a given size has room for, terminated. -/
def clipped (line : List UInt8) (size : ℕ) : List UInt8 := line.take (size - 1) ++ [0]

theorem fill_clipped (line : List UInt8) (buffer : ℕ → UInt8) (size i : ℕ) :
    fill buffer (clipped line size) i =
      if i < min line.length (size - 1) then line.getD i 0
      else if i = min line.length (size - 1) then 0 else buffer i := by
  have hlen : (line.take (size - 1)).length = min line.length (size - 1) := by
    rw [List.length_take, Nat.min_comm]
  unfold fill clipped
  by_cases hi : i < min line.length (size - 1)
  · rw [if_pos hi, List.getElem?_append_left (hlen ▸ hi), List.getElem?_take_of_lt (by omega),
      List.getElem?_eq_getElem (by omega)]
    simp [show i < line.length by omega]
  · rw [if_neg hi, List.getElem?_append_right (by omega), hlen]
    by_cases he : i = min line.length (size - 1)
    · simp [he]
    · have hpast : i - min line.length (size - 1) ≠ 0 := by omega
      rw [if_neg he, List.getElem?_singleton, if_neg hpast]
      rfl

/-! ### Refinement -/

def TtyLine.bytes (line : TtyLine) : List UInt8 := (List.range line.length).map line.text

/-- The terminal is in the state that the semantics gives. -/
structure Follows (t : Terminal) (d : Discipline) : Prop where
  ready : t.ready = true
  holds : t.Holds d.queued.length
  edit : (List.range t.editLength).map t.editLine = d.edit
  lines : (t.lines.contents ttyLineQueueSize).map TtyLine.bytes = d.queued
  delivered : d.delivered ≤ d.accepted.length
  dropped : t.dropped = d.refused % 2 ^ 64

section
variable {t : Terminal} {d : Discipline}

theorem Terminal.Started.follows (h : t.Started) : Follows t .start := by
  have hholds := h.holds
  obtain ⟨t₀, ht₀, rfl⟩ := h
  have hinit : ttyInit t₀ = ⟨.empty t₀.lines.slots, 0, t₀.editLine, 0, true⟩ := by
    simp [ttyInit, ht₀]
  refine ⟨by rw [hinit], hholds, by rw [hinit]; rfl, ?_, Nat.le_refl _, by rw [hinit]; rfl⟩
  rw [RingBuffer.contents_of_count_eq_zero hholds.count]
  rfl

theorem Follows.length_edit (h : Follows t d) : d.edit.length = t.editLength := by
  simp [← h.edit]

theorem Follows.count (h : Follows t d) : t.lines.count = d.queued.length := h.holds.count

theorem submitted_bytes (t : Terminal) :
    t.submitted.bytes = (List.range t.editLength).map t.editLine := by
  refine List.map_congr_left fun i hi => ?_
  exact if_pos (List.mem_range.mp hi)

/-! #### Characters -/

theorem Follows.backspace (h : Follows t d) :
    Follows (ttyHandleBackspace t) { d with edit := d.edit.dropLast } := by
  have hdrop (n : ℕ) : (List.range (n - 1)).map t.editLine =
      ((List.range n).map t.editLine).dropLast := by
    cases n with
    | zero => rfl
    | succ n => rw [List.range_succ, List.map_append, List.map_singleton, List.dropLast_concat,
        Nat.add_sub_cancel]
  have hholds := h.holds.write .backspace
  simp only [Terminal.write, Bool.false_eq_true, if_false] at hholds
  unfold ttyHandleBackspace at hholds ⊢
  split at hholds
  next hempty =>
    have hnil : d.edit = [] := List.length_eq_zero_iff.mp (h.length_edit.trans hempty)
    rw [if_pos hempty, hnil, List.dropLast_nil, ← hnil]
    exact h
  next hsome =>
    rw [if_neg hsome]
    exact ⟨h.ready, hholds, (hdrop t.editLength).trans (congrArg _ h.edit), h.lines, h.delivered,
      h.dropped⟩

theorem Follows.append (h : Follows t d) (ch : UInt8) : Follows (ttyAppend t ch)
    { d with edit := if d.edit.length < 127 then d.edit ++ [ch] else d.edit } := by
  have hholds := h.holds.write (.append ch)
  simp only [Terminal.write, Bool.false_eq_true, if_false] at hholds
  rw [h.length_edit]
  unfold ttyAppend ttyLineLength at hholds ⊢
  by_cases hfull : t.editLength + 1 ≥ 128
  · rw [if_pos hfull, if_neg (by omega)]
    exact h
  · rw [if_neg hfull] at hholds ⊢
    rw [if_pos (by omega)]
    refine ⟨h.ready, hholds, ?_, h.lines, h.delivered, h.dropped⟩
    simp only [List.range_succ, List.map_append, List.map_singleton, Function.update_self, ← h.edit]
    congr 1
    refine List.map_congr_left fun i hi => ?_
    exact Function.update_of_ne (Nat.ne_of_lt (List.mem_range.mp hi)) _ _

/-- A newline queues the edited line or counts it, and starts the next one. -/
theorem Follows.submit (h : Follows t d) :
    Follows (ttySubmitEditLine t).1 (d.call (.receiveChar newline)) := by
  have hholds := (h.holds.submit).write .clear
  simp only [Terminal.write, Bool.false_eq_true, if_false] at hholds
  simp only [Discipline.call, if_true, ttySubmitEditLine]
  by_cases hfull : t.lines.count = ttyLineQueueSize
  · have hqueued : ¬d.queued.length < 8 := by
      rw [← h.count, hfull]
      decide
    rw [if_neg hqueued]
    rw [ttySubmitLocked, if_pos hfull] at hholds ⊢
    refine ⟨h.ready, hholds, rfl, h.lines, h.delivered, ?_⟩
    simp only [ttyClearEditLine, wrap64, h.dropped, Nat.mod_add_mod]
  · have hroom : t.lines.count < ttyLineQueueSize := Nat.lt_of_le_of_ne h.holds.valid.count hfull
    have hqueued : d.queued.length < 8 := by
      rw [← h.count]
      exact hroom
    have hnext : (d.accepted ++ [d.edit]).drop d.delivered = d.queued ++ [d.edit] :=
      List.drop_append_of_le_length h.delivered
    rw [if_pos hqueued]
    rw [ttySubmitLocked, if_neg hfull] at hholds ⊢
    refine ⟨h.ready, ?_, rfl, ?_, ?_, h.dropped⟩
    · simpa only [Discipline.queued, hnext, List.length_append, List.length_singleton, if_true]
        using hholds
    · rw [Discipline.queued, hnext, ← h.lines, ← h.edit, ← submitted_bytes]
      simp only [ttyClearEditLine, h.holds.valid.contents_push hroom, List.map_append,
        List.map_singleton]
    · simp only [List.length_append]
      exact Nat.le_add_right_of_le h.delivered

theorem Follows.receiveChar (h : Follows t d) (ch : UInt8) :
    Follows (ttyReceiveChar t ch).1 (d.call (.receiveChar ch)) := by
  simp only [ttyReceiveChar, h.ready, Bool.true_eq_false, if_false]
  by_cases hback : ch = Tty.backspace
  · have hline : ch ≠ newline := by
      rw [hback]
      decide
    simp only [hback, if_true, Discipline.call, editChar]
    exact h.backspace
  · by_cases hline : ch = newline
    · subst hline
      rw [if_neg hback, if_pos rfl]
      exact h.submit
    · simp only [hback, hline, if_false, Discipline.call, editChar]
      exact h.append ch

/-! #### Reads -/

theorem Follows.front (h : Follows t d) (hpos : 0 < t.lines.count) : ∃ rest,
    d.queued = t.lines.front.bytes :: rest ∧
      ((t.lines.drop ttyLineQueueSize).contents ttyLineQueueSize).map TtyLine.bytes = rest ∧
      d.accepted.drop (d.delivered + 1) = rest := by
  have hlines := h.lines
  rw [h.holds.valid.contents_drop hpos, List.map_cons] at hlines
  refine ⟨_, hlines.symm, rfl, ?_⟩
  have htail := congrArg List.tail hlines.symm
  rw [Discipline.queued, List.tail_drop] at htail
  exact htail

theorem popped_text (hpos : t.lines.count ≠ 0) (size : BufferSize) :
    (ttyPopLineLocked t size).2.2 = clipped t.lines.front.bytes size.val := by
  have hsize := size.property
  have hmin : (if t.lines.front.length + 1 > size.val then size.val - 1
      else t.lines.front.length) = min (size.val - 1) t.lines.front.length := by
    split <;> omega
  rw [ttyPopLineLocked, if_neg hpos]
  simp only [hmin, clipped, TtyLine.bytes, ← List.map_take, List.take_range]

/-- What a reader gets: `-EAGAIN` when no line is queued, else the length of the oldest line, cut
to the buffer, with its first characters and a terminator. -/
theorem Follows.tryReadLine (h : Follows t d) (buffer : ℕ → UInt8) {size : ℕ} (hsize : 0 < size) :
    (d.queued = [] → ttyTryReadLine t (some buffer) size = (t, -Errno.again, some buffer)) ∧
    ∀ line rest, d.queued = line :: rest →
      (ttyTryReadLine t (some buffer) size).2 =
        (((min line.length (size - 1) : ℕ) : ℤ), some (fill buffer (clipped line size))) ∧
      Follows (ttyTryReadLine t (some buffer) size).1 { d with delivered := d.delivered + 1 } := by
  have hcall : ttyTryReadLine t (some buffer) size =
      ((ttyPopLineLocked t ⟨size, hsize⟩).1, (ttyPopLineLocked t ⟨size, hsize⟩).2.1,
        some (fill buffer (ttyPopLineLocked t ⟨size, hsize⟩).2.2)) := by
    simp [ttyTryReadLine, hsize, h.ready]
  rw [hcall]
  refine ⟨fun hempty => ?_, fun line rest hqueued => ?_⟩
  · have hzero : t.lines.count = 0 := by simp [h.count, hempty]
    rw [ttyPopLineLocked, if_pos hzero]
    rfl
  · have hcount : t.lines.count = rest.length + 1 := by simp [h.count, hqueued]
    obtain ⟨rest', hfront, hlines, hdrop⟩ := h.front (by omega)
    obtain ⟨rfl, rfl⟩ := List.cons.inj (hqueued.symm.trans hfront)
    have hholds : t.Holds (rest.length + 1) := by simpa [hqueued] using h.holds
    obtain ⟨hafter, hret⟩ := hholds.pop ⟨size, hsize⟩
    have hlength : t.lines.front.bytes.length = t.lines.front.length := by simp [TtyLine.bytes]
    have hstate : (ttyPopLineLocked t ⟨size, hsize⟩).1 =
        { t with lines := t.lines.drop ttyLineQueueSize } := by
      rw [ttyPopLineLocked, if_neg (by omega)]
    refine ⟨?_, ?_⟩
    · rw [popped_text (by omega), hret, hlength]
    · have hqueue : Discipline.queued { d with delivered := d.delivered + 1 } = rest := hdrop
      rw [hstate] at hafter ⊢
      refine ⟨h.ready, hqueue ▸ hafter, h.edit, hlines.trans hqueue.symm, ?_, h.dropped⟩
      have hlen := congrArg List.length hqueued
      simp only [Discipline.queued, List.length_drop, List.length_cons] at hlen ⊢
      omega

/-- Every call keeps the terminal in step with the semantics. -/
theorem Follows.call (h : Follows t d) (c : TtyCall) : Follows (ttyCall t c) (d.call c) := by
  cases c with
  | receiveChar ch => exact h.receiveChar ch
  | droppedLines => exact h
  | tryReadLine buffer size =>
    cases buffer with
    | none => exact h
    | some buffer =>
      simp only [ttyCall, Discipline.call]
      by_cases hsize : 0 < size
      · obtain ⟨hempty, hsome⟩ := h.tryReadLine buffer hsize
        cases hqueued : d.queued with
        | nil =>
          rw [hempty hqueued]
          simpa using h
        | cons line rest =>
          simpa [hsize] using (hsome line rest hqueued).2
      · simpa [ttyTryReadLine, hsize] using h

theorem Follows.calls (h : Follows t d) (calls : List TtyCall) :
    Follows (calls.foldl ttyCall t) (calls.foldl Discipline.call d) := by
  induction calls generalizing t d with
  | nil => exact h
  | cons c calls ih => exact ih (h.call c)

end

/-- After any calls, the terminal is where the editing semantics puts it: the edit line is the
edited line of the current segment and never longer than 127; the next read gets the oldest
accepted line that has not been read, cut to its buffer, or `-EAGAIN`; and the counter is the
number of segments whose newline came while 8 lines were queued, as a 64-bit number. -/
theorem line_discipline_refines {t : Terminal} (h : t.Started) (calls : List TtyCall) :
    ∃ t' d, calls.foldl ttyCall t = t' ∧ calls.foldl Discipline.call .start = d ∧
      t'.editLength ≤ 127 ∧ (List.range t'.editLength).map t'.editLine = d.edit ∧
      ttyDroppedLines t' = d.refused % 2 ^ 64 ∧
      ∀ buffer size, 1 ≤ size →
        (d.accepted.drop d.delivered = [] →
          ttyTryReadLine t' (some buffer) size = (t', -Errno.again, some buffer)) ∧
        ∀ line rest, d.accepted.drop d.delivered = line :: rest →
          (ttyTryReadLine t' (some buffer) size).2 =
            (((min line.length (size - 1) : ℕ) : ℤ), some fun i =>
              if i < min line.length (size - 1) then line.getD i 0
              else if i = min line.length (size - 1) then 0 else buffer i) := by
  have hf := h.follows.calls calls
  refine ⟨_, _, rfl, rfl, Nat.le_of_lt_succ hf.holds.edit, hf.edit, ?_, fun buffer size hsize => ?_⟩
  · rw [ttyDroppedLines, hf.ready]
    exact hf.dropped
  · obtain ⟨hempty, hsome⟩ := hf.tryReadLine buffer hsize
    refine ⟨hempty, fun line rest hqueued => ?_⟩
    rw [(hsome line rest hqueued).1]
    exact congrArg (fun f => (_, some f)) (funext fun i => fill_clipped line buffer size i)

/-- The zeroed terminal after `tty_init`. -/
def ttyBoot : Terminal := ttyInit ⟨.empty fun _ => ⟨fun _ => 0, 0⟩, 0, fun _ => 0, 0, false⟩

theorem ttyBoot_started : ttyBoot.Started := ⟨_, rfl, rfl⟩

/-- The characters `a`, `b`, backspace, `c`, newline, and a read into a buffer of two bytes. -/
theorem line_discipline_refines_edited :
    (ttyTryReadLine ([97, 98, 8, 99, 10].foldl (fun t ch => ttyCall t (.receiveChar ch)) ttyBoot)
      (some fun _ => 7) 2).2 = (1, some fun i => if i < 1 then 97 else if i = 1 then 0 else 7) := by
  obtain ⟨t', d, ht, hd, -, -, -, hread⟩ := line_discipline_refines ttyBoot_started
    ([97, 98, 8, 99, 10].map .receiveChar)
  rw [List.foldl_map] at ht
  have hqueued : d.accepted.drop d.delivered = [97, 99] :: [] := by
    subst hd
    rfl
  rw [ht, ((hread (fun _ => 7) 2 (by decide)).2 [97, 99] [] hqueued)]
  congr 2
  funext i
  rcases i with _ | _ | i <;> rfl

/-- Eight newlines fill the queue; all further ones are refused. -/
theorem newlines_refused (n : ℕ) :
    ((List.replicate (8 + n) (TtyCall.receiveChar newline)).foldl Discipline.call .start).refused =
        n ∧
      ((List.replicate (8 + n) (TtyCall.receiveChar newline)).foldl Discipline.call
        .start).queued.length = 8 := by
  induction n with
  | zero => exact ⟨rfl, rfl⟩
  | succ n ih =>
    rw [← Nat.add_assoc, List.replicate_succ', List.foldl_append]
    generalize (List.replicate (8 + n) (TtyCall.receiveChar newline)).foldl Discipline.call
      .start = d at ih
    have hfull : ¬d.queued.length < 8 := by omega
    simp only [List.foldl_cons, List.foldl_nil, Discipline.call, if_true, hfull, if_false]
    exact ⟨congrArg (· + 1) ih.1, ih.2⟩

/-- After `2 ^ 64` refused lines the counter is back at 0. -/
theorem line_counter_wraps : ∃ calls : List TtyCall,
    (calls.foldl Discipline.call .start).refused = 2 ^ 64 ∧
      ttyDroppedLines (calls.foldl ttyCall ttyBoot) = 0 := by
  obtain ⟨n, hn⟩ : ∃ n, n = 2 ^ 64 := ⟨_, rfl⟩
  have hf := ttyBoot_started.follows.calls (List.replicate (8 + n) (.receiveChar newline))
  refine ⟨_, (newlines_refused n).1.trans hn, ?_⟩
  rw [ttyDroppedLines, hf.ready, hf.dropped, (newlines_refused n).1, hn]
  rfl

end Tianole.Tty
