import Tianole.Lib.RingBuffer
import Tianole.Printk.FormatText

/-! The ring that `printk_emit_char` fills. Nothing in the kernel reads it yet: what a reader can
rely on is that the bytes before `head` are the newest ones. -/
namespace Tianole.Printk
open RingBuffer Word

/-- `printk_init`. What the buffer holds is left as it is. -/
def printkInit (o : Output) : Output :=
  if o.ready then o
  else { o with ring := { o.ring with head := 0, count := 0, dropped := 0 }, ready := true }

/-- The calls that touch the ring. Each `printk` call has a counter of its own. -/
inductive LogCall where
  | init
  | emit (count : ℤ) (ch : UInt8)

def LogCall.run (o : Output) : LogCall → Output
  | .init => printkInit o
  | .emit count ch => printkEmitChar { o with count := count } ch

def LogCall.chars : LogCall → List UInt8
  | .init => []
  | .emit _ ch => [ch]

/-- The `count` bytes that end just before `head`. -/
def PrintkRing.newest (r : PrintkRing) : List UInt8 :=
  (List.range r.count).map fun i =>
    r.buffer ((r.head + printkRingSize - r.count + i) % printkRingSize)

/-- The ring keeps the last of `chars`, and counts the others. -/
structure PrintkRing.Keeps (r : PrintkRing) (chars : List UInt8) : Prop where
  head : r.head < printkRingSize
  count : r.count = min chars.length printkRingSize
  dropped : r.dropped = (chars.length - min chars.length printkRingSize) % 2 ^ 64
  newest : r.newest = chars.drop (chars.length - min chars.length printkRingSize)

/-! ### The ring as a ring buffer -/

/-- `head` is where the next byte is written; the oldest one lies `count` places before it. -/
def PrintkRing.view (r : PrintkRing) : RingBuffer UInt8 where
  slots := r.buffer
  head := (r.head + printkRingSize - r.count) % printkRingSize
  tail := r.head
  count := r.count

theorem PrintkRing.newest_eq (r : PrintkRing) : r.newest = r.view.contents printkRingSize := by
  simp only [PrintkRing.newest, RingBuffer.contents, PrintkRing.view, Nat.mod_add_mod]

/-- A byte is written over the oldest one when the ring is full. -/
theorem view_putc {r : PrintkRing} (hcount : r.count ≤ printkRingSize) (ch : UInt8) :
    (printkRingPutc r ch).view = r.view.pushOver printkRingSize ch := by
  unfold RingBuffer.pushOver
  split
  next hroom =>
    change r.count < printkRingSize at hroom
    have hhead : ((r.head + 1) % printkRingSize + printkRingSize - (r.count + 1)) % printkRingSize =
        (r.head + printkRingSize - r.count) % printkRingSize := by
      simp only [printkRingSize] at hroom ⊢
      omega
    simp only [PrintkRing.view, printkRingPutc, RingBuffer.push, hroom, if_true, hhead]
  next hfull =>
    obtain hsize : r.count = printkRingSize := Nat.le_antisymm hcount (Nat.not_lt.mp hfull)
    have hhead : ((r.head + 1) % printkRingSize + printkRingSize - printkRingSize) % printkRingSize =
        ((r.head + printkRingSize - printkRingSize) % printkRingSize + 1) % printkRingSize := by
      simp only [printkRingSize]
      omega
    have hstill : printkRingSize - 1 + 1 = printkRingSize := rfl
    simp only [PrintkRing.view, printkRingPutc, RingBuffer.push, RingBuffer.drop, hsize,
      Nat.lt_irrefl, if_false, hhead, hstill]

/-! ### Runs -/

/-- What holds after `printk_init` when `chars` have been emitted since. -/
structure Logged (o : Output) (chars : List UInt8) : Prop where
  ready : o.ready = true
  head : o.ring.head < printkRingSize
  view : ∃ slots, o.ring.view = chars.foldl (pushOver printkRingSize) (RingBuffer.empty slots)
  dropped : o.ring.dropped = (chars.length - printkRingSize) % 2 ^ 64

section
variable {o : Output} {chars : List UInt8}

/-- The first call empties the ring. -/
theorem logged_init (h : o.ready = false) : Logged (printkInit o) [] := by
  have hinit : printkInit o =
      { o with ring := { o.ring with head := 0, count := 0, dropped := 0 }, ready := true } := by
    rw [printkInit, h]
    rfl
  have hstart : (0 + printkRingSize - 0) % printkRingSize = 0 := Nat.mod_self _
  rw [hinit]
  refine ⟨rfl, Nat.zero_lt_succ _, ⟨o.ring.buffer, ?_⟩, ?_⟩
  · simp only [PrintkRing.view, hstart]
    rfl
  · rw [List.length_nil, Nat.zero_sub, Nat.zero_mod]

theorem Logged.count (h : Logged o chars) : o.ring.count = min chars.length printkRingSize := by
  obtain ⟨slots, hview⟩ := h.view
  obtain ⟨-, hcontents⟩ := contents_foldl_pushOver slots (by decide : 0 < printkRingSize) chars
  have hlength := congrArg List.length hcontents
  rw [← hview, length_contents, List.length_drop] at hlength
  change o.ring.count = _ at hlength
  omega

theorem Logged.emit (h : Logged o chars) (ch : UInt8) :
    Logged (printkEmitChar o ch) (chars ++ [ch]) := by
  have hcount := h.count
  obtain ⟨slots, hview⟩ := h.view
  have hring : (printkEmitChar o ch).ring = printkRingPutc o.ring ch := if_pos h.ready
  refine ⟨h.ready, ?_, ⟨slots, ?_⟩, ?_⟩
  · rw [hring]
    exact Nat.mod_lt _ (by decide)
  · rw [hring, view_putc (by omega), hview, List.foldl_append]
    rfl
  · have hdropped := h.dropped
    rw [hring, List.length_append, List.length_singleton]
    simp only [printkRingPutc, wrap64]
    split
    next hroom =>
      have hnone : chars.length + 1 - printkRingSize = chars.length - printkRingSize := by omega
      rw [hdropped, hnone]
    next hfull =>
      have hone : chars.length + 1 - printkRingSize = chars.length - printkRingSize + 1 := by omega
      rw [hdropped, Nat.mod_add_mod, hone]

/-- One call. `printk_init` does nothing when it is called again. -/
theorem Logged.step (h : Logged o chars) (call : LogCall) :
    Logged (LogCall.run o call) (chars ++ call.chars) := by
  cases call with
  | init =>
    have hagain : printkInit o = o := if_pos h.ready
    rw [LogCall.run, hagain, LogCall.chars, List.append_nil]
    exact h
  | emit count ch =>
    have hcounter : Logged { o with count := count } chars := ⟨h.ready, h.head, h.view, h.dropped⟩
    exact hcounter.emit ch

theorem Logged.run (h : Logged o chars) (calls : List LogCall) :
    Logged (calls.foldl LogCall.run o) (chars ++ calls.flatMap LogCall.chars) := by
  induction calls generalizing o chars with
  | nil =>
    rw [List.flatMap_nil, List.append_nil]
    exact h
  | cons call calls ih =>
    rw [List.foldl_cons, List.flatMap_cons, ← List.append_assoc]
    exact ih (h.step call)

theorem Logged.keeps (h : Logged o chars) : o.ring.Keeps chars := by
  have hcount := h.count
  have hdrop : chars.length - min chars.length printkRingSize = chars.length - printkRingSize := by
    omega
  refine ⟨h.head, hcount, ?_, ?_⟩
  · rw [hdrop]
    exact h.dropped
  · obtain ⟨slots, hview⟩ := h.view
    rw [PrintkRing.newest_eq, hview, hdrop]
    exact (contents_foldl_pushOver slots (by decide) chars).2

end

/-- After `printk_init`, whatever is emitted, by whichever calls: the ring holds the newest bytes
in order and has counted the others. -/
theorem log_ring_keeps_newest {o : Output} (h : o.ready = false) (calls : List LogCall) :
    (calls.foldl LogCall.run (printkInit o)).ring.Keeps (calls.flatMap LogCall.chars) := by
  have hlogged := (logged_init h).run calls
  rw [List.nil_append] at hlogged
  exact hlogged.keeps

/-- Two bytes in a new ring. -/
theorem log_ring_keeps_newest_two :
    (printkInit noOutput).ring.Keeps [] ∧
      ((([.emit 0 0x6f, .init, .emit 1 0x6b] : List LogCall).foldl LogCall.run
        (printkInit noOutput)).ring.Keeps [0x6f, 0x6b]) :=
  ⟨log_ring_keeps_newest rfl [], log_ring_keeps_newest rfl [.emit 0 0x6f, .init, .emit 1 0x6b]⟩

end Tianole.Printk
