import Tianole.Errno
import Tianole.Lib.RingBuffer
import Tianole.Lib.Word
import Tianole.Sched.Channel

/-! The global event queue of `drivers/input/input.c`. Drivers report events into a ring under
the lock of its wait queue; readers take them out, blocking or not. -/
namespace Tianole.Input
open Word Sched

def inputQueueCapacity : ℕ := 64

structure InputEvent where
  type : UInt16
  code : UInt16
  value : Int32
  modifiers : UInt32
  device : UInt32
  timestamp : UInt64
  deriving DecidableEq, Repr

/-- `struct input_queue` without its wait queue and its devices. -/
structure InputQueue where
  events : RingBuffer InputEvent
  dropped : ℕ
  last : InputEvent
  hasLast : Bool
  initialized : Bool

def inputHasEvent (q : InputQueue) : Bool := q.events.count != 0

/-- An event stands for the return value 0. -/
def inputPopLocked (q : InputQueue) : InputQueue × Except ℤ InputEvent :=
  if q.events.count = 0 then (q, .error (-Errno.again))
  else ({ q with events := q.events.drop inputQueueCapacity }, .ok q.events.front)

def inputInit (q : InputQueue) : InputQueue :=
  if q.initialized then q
  else { q with events := .empty q.events.slots, dropped := 0, hasLast := false,
                initialized := true }

/-- A waiter is woken exactly when 0 is returned. -/
def inputReportEvent (q : InputQueue) (event : Option InputEvent) : InputQueue × ℤ :=
  if q.initialized = false then (q, -Errno.inval)
  else match event with
    | none => (q, -Errno.inval)
    | some event =>
        if q.events.count = inputQueueCapacity then
          ({ q with dropped := wrap64 (q.dropped + 1) }, -Errno.nospc)
        else
          ({ q with events := q.events.push inputQueueCapacity event, last := event,
                    hasLast := true }, 0)

/-- `input_read_event`, `input_try_read_event` and `input_report_event` on the wait queue
`wait`; readers pass storage for the event. -/
def inputChannel (wait : QueuePtr) :
    Channel InputQueue (Option InputEvent) Unit (Except ℤ InputEvent) where
  queue := wait
  hasItem := inputHasEvent
  allows _ _ := True
  put q event := ((inputReportEvent q event).1, decide ((inputReportEvent q event).2 = 0))
  take q _ := inputPopLocked q

instance (wait : QueuePtr) (q : InputQueue) (event : Option InputEvent) :
    Decidable ((inputChannel wait).allows q event) := isTrue trivial

/-- The state in which `input_init` leaves the zeroed queue. -/
def InputQueue.Started (q : InputQueue) : Prop :=
  ∃ q₀ : InputQueue, q₀.initialized = false ∧ q = inputInit q₀

/-- The ring is in order and holds `n` events. -/
structure InputQueue.Holds (q : InputQueue) (n : ℕ) : Prop where
  valid : q.events.Valid inputQueueCapacity
  count : q.events.count = n

section
variable {q : InputQueue} {n : ℕ}

theorem InputQueue.Started.holds (h : q.Started) : q.Holds 0 := by
  obtain ⟨q₀, hq₀, rfl⟩ := h
  rw [inputInit, hq₀]
  exact ⟨RingBuffer.valid_empty _ (by decide), rfl⟩

theorem InputQueue.Holds.report (h : q.Holds n) (event : Option InputEvent) :
    (inputReportEvent q event).1.Holds (if (inputReportEvent q event).2 = 0 then n + 1 else n) := by
  unfold inputReportEvent
  split
  · simpa [Errno.inval] using h
  · cases event with
    | none => simpa [Errno.inval] using h
    | some event =>
      by_cases hfull : q.events.count = inputQueueCapacity
      · simp only [hfull, ↓reduceIte]
        rw [if_neg (by decide)]
        exact ⟨h.valid, h.count⟩
      · have hroom : q.events.count < inputQueueCapacity := Nat.lt_of_le_of_ne h.valid.count hfull
        simp only [hfull, ↓reduceIte]
        exact ⟨h.valid.push hroom, congrArg (· + 1) h.count⟩

theorem InputQueue.Holds.pop (h : q.Holds (n + 1)) : (inputPopLocked q).1.Holds n ∧
    (inputPopLocked q).2 = .ok q.events.front := by
  have hpos : 0 < q.events.count := by simp [h.count]
  rw [inputPopLocked, if_neg (Nat.pos_iff_ne_zero.mp hpos)]
  exact ⟨⟨h.valid.drop hpos, by simp [RingBuffer.drop, h.count]⟩, rfl⟩

theorem inputChannel_lawful (wait : QueuePtr) :
    (inputChannel wait).Lawful InputQueue.Holds fun r => ∃ event, r = .ok event where
  hasItem h := by simp [inputChannel, inputHasEvent, h.count, Nat.pos_iff_ne_zero]
  put h event _ := by simpa only [inputChannel, decide_eq_true_eq] using h.report event
  take_zero h _ := by
    simp only [inputChannel, inputPopLocked, h.count, ↓reduceIte]
    exact h
  take_succ h _ := ⟨h.pop.1, _, h.pop.2⟩

end

end Tianole.Input
